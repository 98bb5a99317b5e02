import Sglang.Parser.ApertusStreaming

/-!
# Apertus 2509: When Streaming and Parsing Agree

A text is a sequence of markers and other characters (`pieces`). Over it, both parsers are machines
of three modes that differ in one transition: an end marker inside of a tool section ends the block
for the one-shot parser, and is plain text for the streaming one.

- `total_eq_run`, `parsedFrom_eq_run`: the two parsers as machines,
- `Nested`: no end marker is read inside of a tool section,
- `parseStream_eq_detect_iff`: the two agree exactly on such texts,
- `openTool_differs`: a block that ends inside of a tool section.
-/

namespace Sglang.Parser.Apertus

open List Option
open Lib

/-! ## Section 1: Pieces -/

/-- A marker, or a character that starts none. -/
inductive Piece where
  | char (c : Char)
  | thinkStart
  | thinkEnd
  | toolStart
  | toolEnd
deriving DecidableEq

def Piece.text : Piece → List Char
  | .char c => [c]
  | .thinkStart => thinkStartToken
  | .thinkEnd => thinkEndToken
  | .toolStart => toolStartToken
  | .toolEnd => toolEndToken

def tokens : List Piece := [.thinkStart, .thinkEnd, .toolStart, .toolEnd]

theorem text_ne_nil (p : Piece) : p.text ≠ [] := by
  cases p with
  | char c => simp [Piece.text]
  | _ => decide

def pieces : List Char → List Piece
  | [] => []
  | c :: t =>
    match _h : tokens.find? fun p => p.text <+: c :: t with
    | some p => p :: pieces ((c :: t).drop p.text.length)
    | none => .char c :: pieces t
termination_by t => t.length
decreasing_by
  · have hpos := length_pos_of_ne_nil (text_ne_nil p)
    rw [length_drop, length_cons]
    omega
  · simp

variable {p : Piece} {t : List Char} {ps : List Piece}

theorem led_text (hp : p ∈ tokens) : Led '<' p.text := by
  simp only [tokens, mem_cons, not_mem_nil, or_false] at hp
  rcases hp with rfl | rfl | rfl | rfl
  · exact led_thinkStart
  · exact led_thinkEnd
  · exact led_toolStart
  · exact led_toolEnd

theorem eq_of_isPrefix {p q : Piece} (hp : p ∈ tokens) (hq : q ∈ tokens)
    (hpt : p.text <+: t) (hqt : q.text <+: t) : p = q := by
  have hcomp : p.text <+: q.text ∨ q.text <+: p.text := prefix_or_prefix_of_prefix hpt hqt
  simp only [tokens, mem_cons, not_mem_nil, or_false] at hp hq
  rcases hp with rfl | rfl | rfl | rfl <;> rcases hq with rfl | rfl | rfl | rfl <;>
    first | rfl | exact absurd hcomp (by decide)

theorem pieces_token (hp : p ∈ tokens) (t : List Char) :
    pieces (p.text ++ t) = p :: pieces t := by
  obtain ⟨c, r, hcr⟩ := exists_cons_of_ne_nil (text_ne_nil p)
  rw [hcr, cons_append, pieces]
  split
  · next q hq =>
    have hpre : q.text <+: p.text ++ t := by
      rw [hcr]
      simpa using find?_some hq
    obtain rfl := eq_of_isPrefix (mem_of_find?_eq_some hq) hp hpre (prefix_append _ t)
    rw [← cons_append, ← hcr, drop_left]
  · next hnone =>
    rw [find?_eq_none] at hnone
    refine (hnone p hp ?_).elim
    simp [hcr]

theorem pieces_char {c : Char} (h : ∀ p ∈ tokens, ¬ p.text <+: c :: t) :
    pieces (c :: t) = .char c :: pieces t := by
  rw [pieces]
  split
  · next q hq => exact (h q (mem_of_find?_eq_some hq) (by simpa using find?_some hq)).elim
  · rfl

theorem cut_token {p q : Piece} (hp : p ∈ tokens) (hq : q ∈ tokens) (hne : p ≠ q) (t : List Char) :
    cut p.text (q.text ++ t) = (cut p.text t).map fun r => (q.text ++ r.1, r.2) := by
  apply cut_append_left
  intro h₁ h₂ hh hh₂ hpre
  cases h₁ with
  | nil =>
    rw [nil_append] at hh
    rw [← hh] at hpre
    exact hne (eq_of_isPrefix hp hq hpre (prefix_append _ t))
  | cons d h₁ =>
    obtain ⟨c, h₂, rfl⟩ := exists_cons_of_ne_nil hh₂
    obtain ⟨r, hr, _⟩ := led_text hp
    obtain ⟨r', hr', hnot⟩ := led_text hq
    obtain ⟨x, hx⟩ := hpre
    rw [hr, cons_append, cons_append, List.cons.injEq] at hx
    rw [hr', cons_append, List.cons.injEq] at hh
    apply hnot
    rw [hh.2, hx.1]
    simp

/-- The pieces before and after the first occurrence of a marker. -/
theorem pieces_cut (hp : p ∈ tokens) : ∀ (n : Nat) (t : List Char), t.length = n →
    match cut p.text t with
    | none => p ∉ pieces t
    | some (a, r) => pieces t = pieces a ++ p :: pieces r ∧ p ∉ pieces a := by
  intro n
  -- the induction is on the length: `t` starts with a token, or with a character
  induction n using Nat.strong_induction_on with
  | _ n ih =>
    rintro t rfl
    by_cases hhead : ∃ q ∈ tokens, q.text <+: t
    · obtain ⟨q, hq, s, rfl⟩ := hhead
      by_cases hpq : p = q
      · subst hpq
        have hcut := @cut_of_first _ _ p.text [] s (by
          intro a₁ a₂ ha hne
          exact (hne (append_eq_nil_iff.mp ha.symm).2).elim)
        rw [nil_append] at hcut
        rw [hcut]
        refine ⟨?_, by simp [pieces]⟩
        rw [pieces_token hp s, pieces]
        rfl
      · have hlen : s.length < (q.text ++ s).length := by
          have := length_pos_of_ne_nil (text_ne_nil q)
          rw [length_append]
          omega
        have hrest := ih _ hlen s rfl
        rw [cut_token hp hq hpq]
        cases hcut : cut p.text s with
        | none =>
          rw [hcut] at hrest
          rw [pieces_token hq]
          simpa [hpq] using hrest
        | some r =>
          rw [hcut] at hrest
          simp only [map_some]
          rw [pieces_token hq, pieces_token hq, hrest.1]
          exact ⟨rfl, by simpa [hpq] using hrest.2⟩
    · rw [not_exists] at hhead
      cases t with
      | nil =>
        rw [cut, if_neg (text_ne_nil p)]
        simp [pieces]
      | cons c t =>
        have hnone : ∀ q ∈ tokens, ¬ q.text <+: c :: t := fun q hq hpre => hhead q ⟨hq, hpre⟩
        have hrest := ih _ (by simp) t rfl
        have hpc : p ≠ .char c := by
          rintro rfl
          simp [tokens] at hp
        rw [cut, if_neg (hnone p hp)]
        cases hcut : cut p.text t with
        | none =>
          rw [hcut] at hrest
          rw [pieces_char hnone]
          simpa [hpc] using hrest
        | some r =>
          rw [hcut] at hrest
          simp only [map_some]
          have hnone' : ∀ q ∈ tokens, ¬ q.text <+: c :: r.1 := by
            intro q hq hpre
            apply hnone q hq
            rw [cut_eq hcut, append_assoc]
            exact hpre.trans ⟨p.text ++ r.2, rfl⟩
          rw [pieces_char hnone, pieces_char hnone', hrest.1]
          exact ⟨rfl, by simpa [hpc] using hrest.2⟩

theorem pieces_of_cut (hp : p ∈ tokens) {t a r : List Char}
    (h : cut p.text t = some (a, r)) : pieces t = pieces a ++ p :: pieces r ∧ p ∉ pieces a := by
  have hcut := pieces_cut hp _ t rfl
  rwa [h] at hcut

theorem not_mem_pieces (hp : p ∈ tokens) (h : cut p.text t = none) :
    p ∉ pieces t := by
  have hcut := pieces_cut hp _ t rfl
  rwa [h] at hcut

theorem flatMap_pieces : ∀ (n : Nat) (t : List Char), t.length = n →
    (pieces t).flatMap Piece.text = t := by
  intro n
  induction n using Nat.strong_induction_on with
  | _ n ih =>
    rintro t rfl
    by_cases hhead : ∃ q ∈ tokens, q.text <+: t
    · obtain ⟨q, hq, s, rfl⟩ := hhead
      have hlen : s.length < (q.text ++ s).length := by
        have := length_pos_of_ne_nil (text_ne_nil q)
        rw [length_append]
        omega
      rw [pieces_token hq, flatMap_cons, ih _ hlen s rfl]
    · rw [not_exists] at hhead
      cases t with
      | nil => simp [pieces]
      | cons c t =>
        rw [pieces_char fun q hq hpre => hhead q ⟨hq, hpre⟩, flatMap_cons, ih _ (by simp) t rfl]
        rfl

/-! ## Section 2: The two machines -/

/-- The three modes. -/
inductive Mode where
  | normal
  | inner
  | tool
deriving DecidableEq

/-- A piece of the stream: the new mode and the output. -/
def streamStep : Mode → Piece → Mode × ParseResult
  | .normal, .thinkStart => (.inner, ⟨[], []⟩)
  | .normal, p => (.normal, ⟨[], p.text⟩)
  | .inner, .thinkEnd => (.normal, ⟨[], []⟩)
  | .inner, .toolStart => (.tool, ⟨[], toolStartToken⟩)
  | .inner, p => (.inner, ⟨p.text, []⟩)
  | .tool, .toolEnd => (.inner, ⟨[], toolEndToken⟩)
  | .tool, p => (.tool, ⟨[], p.text⟩)

/-- A piece for the one-shot parser: a block also ends inside of a tool section. -/
def parseStep : Mode → Piece → Mode × ParseResult
  | .tool, .thinkEnd => (.normal, ⟨[], []⟩)
  | m, p => streamStep m p

def runPieces (step : Mode → Piece → Mode × ParseResult) : Mode → List Piece → ParseResult
  | _, [] => ⟨[], []⟩
  | m, p :: ps => (step m p).2.append (runPieces step (step m p).1 ps)

theorem runPieces_plain {step : Mode → Piece → Mode × ParseResult} {m : Mode}
    (out : List Char → ParseResult) (hnil : out [] = ⟨[], []⟩)
    (happend : ∀ s t, out (s ++ t) = (out s).append (out t))
    (h : ∀ p ∈ ps, step m p = (m, out p.text)) (rest : List Piece) :
    runPieces step m (ps ++ rest) =
      (out (ps.flatMap Piece.text)).append (runPieces step m rest) := by
  induction ps with
  | nil => simp [hnil, ParseResult.append]
  | cons p ps ih =>
    rw [cons_append, runPieces, h p (mem_cons_self ..),
      ih fun q hq => h q (mem_cons_of_mem _ hq), flatMap_cons, happend,
      ParseResult.append_assoc]

theorem not_mem_of_not_isInfix (hp : p ∈ tokens) (h : ¬ p.text <:+: t) :
    p ∉ pieces t :=
  not_mem_pieces hp (cut_eq_none_iff.mpr h)

def asNormal (t : List Char) : ParseResult := ⟨[], t⟩

def asReasoning (t : List Char) : ParseResult := ⟨t, []⟩

theorem asNormal_append (s t : List Char) : asNormal (s ++ t) =
    (asNormal s).append (asNormal t) := by
  simp [asNormal, ParseResult.append]

theorem asReasoning_append (s t : List Char) :
    asReasoning (s ++ t) = (asReasoning s).append (asReasoning t) := by
  simp [asReasoning, ParseResult.append]

/-- Both machines, up to the marker that they follow in a mode. -/
structure Machine (step : Mode → Piece → Mode × ParseResult) : Prop where
  normal : ∀ p, p ≠ .thinkStart → step .normal p = (.normal, asNormal p.text)
  start : step .normal .thinkStart = (.inner, ⟨[], []⟩)
  inner : ∀ p, p ≠ .thinkEnd → p ≠ .toolStart → step .inner p = (.inner, asReasoning p.text)
  stop : step .inner .thinkEnd = (.normal, ⟨[], []⟩)
  toolStart : step .inner .toolStart = (.tool, asNormal toolStartToken)
  tool : ∀ p, p ≠ .thinkEnd → p ≠ .toolEnd → step .tool p = (.tool, asNormal p.text)
  toolEnd : step .tool .toolEnd = (.inner, asNormal toolEndToken)

theorem machine_stream : Machine streamStep where
  normal := by
    intro p hp
    cases p <;> first | rfl | exact (hp rfl).elim
  start := rfl
  inner := by
    intro p hp hp'
    cases p <;> first | rfl | exact (hp rfl).elim | exact (hp' rfl).elim
  stop := rfl
  toolStart := rfl
  tool := by
    intro p hp hp'
    cases p <;> first | rfl | exact (hp' rfl).elim
  toolEnd := rfl

theorem machine_parse : Machine parseStep where
  normal := machine_stream.normal
  start := rfl
  inner := machine_stream.inner
  stop := rfl
  toolStart := rfl
  tool := by
    intro p hp hp'
    cases p <;> first | rfl | exact (hp rfl).elim | exact (hp' rfl).elim
  toolEnd := rfl

section Machine

variable {step : Mode → Piece → Mode × ParseResult} (hm : Machine step) {t : List Char}
include hm

theorem run_normal (h : .thinkStart ∉ pieces t) (rest : List Piece) :
    runPieces step .normal (pieces t ++ rest) =
      (asNormal t).append (runPieces step .normal rest) := by
  rw [runPieces_plain asNormal rfl asNormal_append (fun p hp => hm.normal p fun heq =>
    h (heq ▸ hp)) rest, flatMap_pieces _ t rfl]

theorem run_inner (h : .thinkEnd ∉ pieces t) (h' : .toolStart ∉ pieces t) (rest : List Piece) :
    runPieces step .inner (pieces t ++ rest) =
      (asReasoning t).append (runPieces step .inner rest) := by
  rw [runPieces_plain asReasoning rfl asReasoning_append (fun p hp =>
    hm.inner p (fun heq => h (heq ▸ hp))
    fun heq => h' (heq ▸ hp)) rest, flatMap_pieces _ t rfl]

theorem run_tool (h : .thinkEnd ∉ pieces t) (h' : .toolEnd ∉ pieces t) (rest : List Piece) :
    runPieces step .tool (pieces t ++ rest) = (asNormal t).append (runPieces step .tool rest) := by
  rw [runPieces_plain asNormal rfl asNormal_append (fun p hp => hm.tool p (fun heq => h (heq ▸ hp))
    fun heq => h' (heq ▸ hp)) rest, flatMap_pieces _ t rfl]

end Machine

theorem run_streamTool (h : .toolEnd ∉ pieces t) (rest : List Piece) :
    runPieces streamStep .tool (pieces t ++ rest) =
      (asNormal t).append (runPieces streamStep .tool rest) := by
  have hstep : ∀ p ∈ pieces t, streamStep .tool p = (.tool, asNormal p.text) := by
    intro p hp
    cases p <;> first | rfl | exact (h hp).elim
  rw [runPieces_plain asNormal rfl asNormal_append hstep rest, flatMap_pieces _ t rfl]

def Detector.mode (d : Detector) : Mode :=
  if ¬ d.inReasoning then .normal else if d.inInnerTool then .tool else .inner

theorem total_eq_run : ∀ (n : Nat) (d : Detector), d.size = n →
    total d = runPieces streamStep d.mode (pieces d.buffer) := by
  intro n
  induction n using Nat.strong_induction_on with
  | _ n ih =>
    rintro d rfl
    have hrec : ∀ {d' out}, iterate true d = (.go, d', out) →
        total d = out.append (runPieces streamStep d'.mode (pieces d'.buffer)) := by
      intro d' out hiter
      have hsize := iterate_size true d (by rw [hiter])
      rw [hiter] at hsize
      rw [total_go hiter, ih _ hsize d' rfl]
    cases hd : d.inReasoning with
    | false =>
      have hmode : d.mode = .normal := by simp [Detector.mode, hd]
      have hiter := iterate_normal hd
      cases hcut : cut thinkStartToken d.buffer with
      | none =>
        simp only [hcut] at hiter
        have hrun := run_normal machine_stream (not_mem_pieces (by decide) hcut) []
        rw [append_nil] at hrun
        rw [total_stop hiter, hmode, hrun]
        simp [credit, hd, asNormal, runPieces, ParseResult.append]
      | some p =>
        obtain ⟨a, r⟩ := p
        simp only [hcut] at hiter
        obtain ⟨hpieces, hnot⟩ := pieces_of_cut (p := .thinkStart) (by decide) hcut
        rw [hrec hiter, hmode, hpieces, run_normal machine_stream hnot]
        rfl
    | true =>
      cases ht : d.inInnerTool with
      | true =>
        have hmode : d.mode = .tool := by simp [Detector.mode, hd, ht]
        have hiter := iterate_tool hd ht
        cases hcut : cut toolEndToken d.buffer with
        | none =>
          simp only [hcut] at hiter
          have hrun := run_streamTool (not_mem_pieces (p := .toolEnd) (by decide) hcut) []
          rw [append_nil] at hrun
          rw [total_stop hiter, hmode, hrun]
          simp [credit, hd, ht, asNormal, runPieces, ParseResult.append]
        | some p =>
          obtain ⟨a, r⟩ := p
          simp only [hcut] at hiter
          obtain ⟨hpieces, hnot⟩ := pieces_of_cut (p := .toolEnd) (by decide) hcut
          rw [hrec hiter, hmode, hpieces, run_streamTool hnot, runPieces,
            ← ParseResult.append_assoc]
          simp [Detector.mode, hd, streamStep, asNormal, ParseResult.append]
      | false =>
        have hmode : d.mode = .inner := by simp [Detector.mode, hd, ht]
        have hiter := iterate_inner hd ht
        rw [hmode]
        -- The block ends before the next tool section, or a tool section starts before that.
        have hstop : ∀ {a r},
          iterate true d = (.go, { d with inReasoning := false, buffer := r }, ⟨a, []⟩) →
          cut thinkEndToken d.buffer = some (a, r) → ¬ toolStartToken <:+: a →
          total d = runPieces streamStep .inner (pieces d.buffer) := by
          intro a r hiter hcut hno
          obtain ⟨hpieces, hnot⟩ := pieces_of_cut (p := .thinkEnd) (by decide) hcut
          rw [hrec hiter, hpieces, run_inner machine_stream hnot
            (not_mem_of_not_isInfix (p := .toolStart) (by decide) hno)]
          rfl
        have hstart : ∀ {a r}, iterate true d =
              (.go, { d with inInnerTool := true, buffer := toolStartToken ++ r }, ⟨a, []⟩) →
            cut toolStartToken d.buffer = some (a, r) → ¬ thinkEndToken <:+: a →
            total d = runPieces streamStep .inner (pieces d.buffer) := by
          intro a r hiter hcut hno
          obtain ⟨hpieces, hnot⟩ := pieces_of_cut (p := .toolStart) (by decide) hcut
          rw [hrec hiter, hpieces, run_inner machine_stream
            (not_mem_of_not_isInfix (p := .thinkEnd) (by decide) hno) hnot]
          have htoken := pieces_token (p := .toolStart) (by decide) r
          simp only [Piece.text] at htoken
          simp [htoken, Detector.mode, hd, runPieces, streamStep, asReasoning, Piece.text]
        cases htool : cut toolStartToken d.buffer with
        | none =>
          cases hend : cut thinkEndToken d.buffer with
          | none =>
            simp only [htool, hend] at hiter
            have hrun := run_inner machine_stream (not_mem_pieces (p := .thinkEnd) (by decide) hend)
              (not_mem_pieces (p := .toolStart) (by decide) htool) []
            rw [append_nil] at hrun
            rw [total_stop hiter, hrun]
            simp [credit, hd, ht, asReasoning, runPieces, ParseResult.append]
          | some p =>
            simp only [htool, hend] at hiter
            refine hstop hiter hend fun hinf => cut_none htool ?_
            rw [cut_eq hend, append_assoc]
            exact hinf.trans (prefix_append _ _).isInfix
        | some p =>
          obtain ⟨a, r⟩ := p
          cases hend : cut thinkEndToken d.buffer with
          | none =>
            simp only [htool, hend] at hiter
            refine hstart hiter htool fun hinf => cut_none hend ?_
            rw [cut_eq htool, append_assoc]
            exact hinf.trans (prefix_append _ _).isInfix
          | some p' =>
            obtain ⟨a', r'⟩ := p'
            simp only [htool, hend] at hiter
            split at hiter
            · next hle =>
              refine hstop hiter hend ?_
              rintro ⟨x, y, hxy⟩
              have hbuf : d.buffer = x ++ toolStartToken ++ (y ++ thinkEndToken ++ r') := by
                rw [cut_eq hend, ← hxy]
                simp
              have hfirst := cut_unique htool hbuf
              have hpos : 0 < toolStartToken.length := by decide
              rw [← hxy] at hle
              simp only [length_append] at hle
              omega
            · next hle =>
              refine hstart hiter htool ?_
              rintro ⟨x, y, hxy⟩
              have hbuf : d.buffer = x ++ thinkEndToken ++ (y ++ toolStartToken ++ r) := by
                rw [cut_eq htool, ← hxy]
                simp
              have hfirst := cut_unique hend hbuf
              have hpos : 0 < thinkEndToken.length := by decide
              rw [← hxy] at hle
              simp only [length_append] at hle
              omega

/-- The inside of a block, and what follows in whatever mode it ends. -/
theorem split_eq_run {rest : List Piece} {out : ParseResult}
    (hrest : ∀ m, m ≠ .normal → runPieces parseStep m rest = out) :
    ∀ (n : Nat) (b : List Char), b.length = n → .thinkEnd ∉ pieces b →
      runPieces parseStep .inner (pieces b ++ rest) =
        (parsed (splitInnerReasoning b)).append out := by
  intro n
  induction n using Nat.strong_induction_on with
  | _ n ih =>
    rintro b rfl hend
    cases htool : cut toolStartToken b with
    | none =>
      rw [split_none htool, run_inner machine_parse hend
        (not_mem_pieces (p := .toolStart) (by decide) htool), hrest _ (by decide)]
      rfl
    | some p =>
      obtain ⟨a, r⟩ := p
      obtain ⟨hpieces, hnot⟩ := pieces_of_cut (p := .toolStart) (by decide) htool
      rw [hpieces, mem_append, mem_cons, not_or, not_or] at hend
      obtain ⟨hendA, _, hendR⟩ := hend
      have hshift := @cut_token .toolEnd .toolStart (by decide) (by decide) (by decide) r
      simp only [Piece.text] at hshift
      rw [hpieces, append_assoc, run_inner machine_parse hendA hnot, cons_append, runPieces,
        machine_parse.toolStart]
      cases htoolEnd : cut toolEndToken r with
      | none =>
        rw [htoolEnd, map_none] at hshift
        rw [split_open htool hshift, run_tool machine_parse hendR
          (not_mem_pieces (p := .toolEnd) (by decide) htoolEnd), hrest _ (by decide)]
        simp [asReasoning, asNormal, ParseResult.append]
      | some p' =>
        obtain ⟨c, r'⟩ := p'
        rw [htoolEnd, map_some] at hshift
        obtain ⟨hpieces', hnot'⟩ := pieces_of_cut (p := .toolEnd) (by decide) htoolEnd
        rw [hpieces', mem_append, mem_cons, not_or, not_or] at hendR
        have hlen : r'.length < b.length := by
          have hpos : 0 < toolStartToken.length := by decide
          rw [cut_eq htool, cut_eq htoolEnd]
          simp only [length_append]
          omega
        rw [split_closed htool hshift, hpieces', append_assoc,
          run_tool machine_parse hendR.1 hnot', cons_append, runPieces, machine_parse.toolEnd,
          ih _ hlen r' rfl hendR.2.2]
        simp [asReasoning, asNormal, ParseResult.append]

theorem blockLoop_eq_run : ∀ (n : Nat) (t : List Char), t.length = n →
    parsed (blockLoop t) = runPieces parseStep .normal (pieces t) := by
  intro n
  induction n using Nat.strong_induction_on with
  | _ n ih =>
    rintro t rfl
    cases hstart : cut thinkStartToken t with
    | none =>
      have hrun :=
        run_normal machine_parse (not_mem_pieces (p := .thinkStart) (by decide) hstart) []
      rw [append_nil] at hrun
      rw [blockLoop_none hstart, hrun]
      simp [asNormal, runPieces, ParseResult.append]
    | some p =>
      obtain ⟨a, r⟩ := p
      obtain ⟨hpieces, hnot⟩ := pieces_of_cut (p := .thinkStart) (by decide) hstart
      rw [hpieces, run_normal machine_parse hnot, runPieces, machine_parse.start]
      cases hend : cut thinkEndToken r with
      | none =>
        have hrun := @split_eq_run [] ⟨[], []⟩ (fun _ _ => rfl) _ r rfl
          (not_mem_pieces (p := .thinkEnd) (by decide) hend)
        rw [append_nil] at hrun
        rw [blockLoop_last hstart hend, hrun]
        simp [asNormal, ParseResult.append]
      | some p' =>
        obtain ⟨b, r'⟩ := p'
        obtain ⟨hpieces', hnot'⟩ := pieces_of_cut (p := .thinkEnd) (by decide) hend
        have hlen : r'.length < t.length := by
          have hpos : 0 < thinkStartToken.length := by decide
          rw [cut_eq hstart, cut_eq hend]
          simp only [length_append]
          omega
        have hafter : ∀ m, m ≠ .normal → runPieces parseStep m (.thinkEnd :: pieces r') =
            parsed (blockLoop r') := by
          intro m hm
          rw [ih _ hlen r' rfl]
          cases m with
          | normal => exact (hm rfl).elim
          | _ => rfl
        rw [blockLoop_block hstart hend, hpieces', split_eq_run hafter _ b rfl hnot']
        rfl

/-- The mode in which a text is read first. -/
def firstMode (inReasoning : Bool) : Mode := if inReasoning then .inner else .normal

theorem parsedFrom_eq_run (inReasoning : Bool) (t : List Char) :
    parsedFrom inReasoning t = runPieces parseStep (firstMode inReasoning) (pieces t) := by
  cases inReasoning with
  | false => exact blockLoop_eq_run _ t rfl
  | true =>
    unfold parsedFrom firstMode
    cases hend : cut thinkEndToken t with
    | none =>
      have hrun := @split_eq_run [] ⟨[], []⟩ (fun _ _ => rfl) _ t rfl
        (not_mem_pieces (p := .thinkEnd) (by decide) hend)
      rw [append_nil] at hrun
      simp only [if_true, hrun]
      simp [ParseResult.append]
    | some p =>
      obtain ⟨b, r⟩ := p
      obtain ⟨hpieces, hnot⟩ := pieces_of_cut (p := .thinkEnd) (by decide) hend
      have hafter : ∀ m, m ≠ .normal → runPieces parseStep m (.thinkEnd :: pieces r) =
          parsed (blockLoop r) := by
        intro m hm
        rw [blockLoop_eq_run _ r rfl]
        cases m with
        | normal => exact (hm rfl).elim
        | _ => rfl
      simp only [if_true]
      rw [hpieces, split_eq_run hafter _ b rfl hnot]

/-! ## Section 3: Agreement -/

/-- No end marker is read inside of a tool section of a block. -/
def Nested : Mode → List Piece → Prop
  | _, [] => True
  | m, p :: ps => ¬ (m = .tool ∧ p = .thinkEnd) ∧ Nested (streamStep m p).1 ps

theorem parseStep_eq {m : Mode} (h : ¬ (m = .tool ∧ p = .thinkEnd)) :
    parseStep m p = streamStep m p := by
  unfold parseStep
  split
  · exact (h ⟨rfl, rfl⟩).elim
  · rfl

theorem run_eq_of_nested : ∀ {m : Mode}, Nested m ps →
    runPieces streamStep m ps = runPieces parseStep m ps := by
  induction ps with
  | nil => exact fun _ => rfl
  | cons p ps ih =>
    intro m h
    rw [runPieces, runPieces, parseStep_eq h.1, ih h.2]

/-- What the stream may still drop that the one-shot parser does not: the end marker that brings
it out of the block. -/
def slack (ms md : Mode) : Nat := if ms ≠ .normal ∧ md = .normal then 16 else 0

theorem size_parse_le (ps : List Piece) : ∀ (ms md : Mode), (ms = .normal → md = .normal) →
    (runPieces parseStep md ps).size ≤ (runPieces streamStep ms ps).size + slack ms md := by
  have hlenS : thinkStartToken.length = 16 := by decide
  have hlenE : thinkEndToken.length = 16 := by decide
  induction ps with
  | nil => exact fun ms md _ => Nat.zero_le _
  | cons p ps ih =>
    intro ms md hpair
    have hrest := ih (streamStep ms p).1 (parseStep md p).1
    simp only [runPieces, ParseResult.size_append]
    cases ms <;> cases md <;> first | exact absurd (hpair rfl) (by decide) | skip
    all_goals
      cases p <;> simp [streamStep, parseStep, slack, ParseResult.size, Piece.text, hlenS, hlenE]
        at hrest ⊢ <;> omega

/-- The pairs of modes that the two parsers run through while they drop the same. -/
def Paired (ms md : Mode) : Prop := ms = md ∨ ms ≠ .normal ∧ md = .normal

theorem reasoning_parse_le (ps : List Piece) : ∀ (ms md : Mode), Paired ms md →
    (runPieces parseStep md ps).size = (runPieces streamStep ms ps).size + slack ms md →
    (runPieces parseStep md ps).reasoningText.length ≤
      (runPieces streamStep ms ps).reasoningText.length := by
  have hlenS : thinkStartToken.length = 16 := by decide
  have hlenE : thinkEndToken.length = 16 := by decide
  induction ps with
  | nil => exact fun ms md _ _ => Nat.le_refl _
  | cons p ps ih =>
    intro ms md hpair htight
    have hrest := ih (streamStep ms p).1 (parseStep md p).1
    have hsize := size_parse_le ps (streamStep ms p).1 (parseStep md p).1
    simp only [runPieces, ParseResult.size_append] at htight
    simp only [runPieces, ParseResult.append, length_append]
    rcases hpair with rfl | ⟨hne, rfl⟩
    · cases ms <;> cases p <;> simp [streamStep, parseStep, slack, ParseResult.size, Piece.text,
        hlenS, hlenE, Paired] at htight hrest hsize ⊢ <;> omega
    · cases ms with
      | normal => exact (hne rfl).elim
      | _ =>
        cases p <;> simp [streamStep, parseStep, slack, ParseResult.size, Piece.text, hlenS, hlenE,
          Paired] at htight hrest hsize ⊢ <;> omega

theorem not_infix_of_commute : ∀ (n : Nat) (x : List Char), x.length = n →
    thinkEndToken ++ x = x ++ thinkEndToken → ¬ toolEndToken <:+: x := by
  intro n
  induction n using Nat.strong_induction_on with
  | _ n ih =>
    rintro x rfl hcomm
    by_cases hle : thinkEndToken.length ≤ x.length
    · -- The text starts with the marker, and what is left commutes too.
      obtain ⟨y, rfl⟩ : thinkEndToken <+: x :=
        prefix_of_prefix_length_le (prefix_append _ x) ⟨_, hcomm.symm⟩ hle
      rw [append_assoc, append_cancel_left_eq] at hcomm
      have hpos : 0 < thinkEndToken.length := by decide
      have hrest := ih _ (by rw [length_append]; omega) y rfl hcomm
      have hcut := @cut_token .toolEnd .thinkEnd (by decide) (by decide) (by decide) y
      simp only [Piece.text] at hcut
      rw [← cut_eq_none_iff] at hrest ⊢
      rw [hcut, hrest]
      rfl
    · -- A proper beginning of the marker is followed by `<` on one side only.
      intro hinf
      have hlen := hinf.length_le
      have : toolEndToken.length = thinkEndToken.length := by decide
      omega

/-- Once an end marker is read inside of a tool section, the two parsers never agree again: `x` is
what both have put out as normal text since then, and the stream is ahead by the marker. -/
theorem diverged (ps : List Piece) : ∀ (ms : Mode) (x : List Char), ms ≠ .normal →
    (ms = .inner → toolEndToken <:+: x) →
    thinkEndToken ++ x ++ (runPieces streamStep ms ps).normalText =
      x ++ (runPieces parseStep .normal ps).normalText →
    (runPieces streamStep ms ps).reasoningText ≠
      (runPieces parseStep .normal ps).reasoningText := by
  have hlenS : thinkStartToken.length = 16 := by decide
  have hlenE : thinkEndToken.length = 16 := by decide
  induction ps with
  | nil =>
    intro ms x _ _ hnormal
    have hlen := congrArg List.length hnormal
    simp only [length_append, hlenE] at hlen
    simp [runPieces] at hlen
  | cons p ps ih =>
    intro ms x hms htool hnormal hreason
    have hlen := congrArg List.length hnormal
    have hlen' := congrArg List.length hreason
    simp only [length_append, hlenE] at hlen
    have htight : (runPieces parseStep .normal (p :: ps)).size =
        (runPieces streamStep ms (p :: ps)).size + 16 := by
      simp only [ParseResult.size]
      omega
    -- The same text goes to the normal text of both.
    have hboth : ∀ (q : List Char) (ms' : Mode), ms' ≠ .normal →
        (ms' = .inner → toolEndToken <:+: x ++ q) → streamStep ms p = (ms', asNormal q) →
        parseStep .normal p = (.normal, asNormal q) → False := by
      intro q ms' hms' htool' hs hd
      simp only [runPieces, hs, hd, ParseResult.append, asNormal, nil_append] at hnormal hreason
      refine ih ms' (x ++ q) hms' htool' ?_ hreason
      simpa [append_assoc] using hnormal
    -- A block that only the one-shot parser reads drops two more markers.
    have hblock : ∀ ms', ms' ≠ .normal →
      streamStep ms .thinkStart = (ms', (streamStep ms .thinkStart).2) →
      (streamStep ms .thinkStart).2.size = 16 → p ≠ .thinkStart := by
      rintro ms' hms' hs hsize rfl
      have hle := size_parse_le ps ms' .inner fun heq => (hms' heq).elim
      simp only [runPieces, ParseResult.size_append, hsize, machine_parse.start] at htight
      rw [hs] at htight
      have hnil : ParseResult.size ⟨[], []⟩ = 0 := rfl
      simp only [slack, reduceCtorEq, and_false, if_false, hnil] at hle htight
      omega
    -- Text that only the stream credits to the reasoning stays ahead there.
    have hahead : ms = .inner → streamStep .inner p = (.inner, asReasoning p.text) →
        parseStep .normal p = (.normal, asNormal p.text) → False := by
      rintro rfl hs hd
      simp only [runPieces, hs, hd, ParseResult.append, asReasoning, asNormal, nil_append]
        at htight hreason
      have hpos := length_pos_of_ne_nil (text_ne_nil p)
      have hle := reasoning_parse_le ps .inner .normal (.inr ⟨by decide, rfl⟩) (by
        simp only [ParseResult.size, length_append] at htight ⊢
        simp only [slack, ne_eq, reduceCtorEq, not_false_eq_true, and_self, if_true]
        omega)
      rw [← hreason, length_append] at hle
      omega
    cases ms with
    | normal => exact hms rfl
    | inner =>
      cases p with
      | thinkStart => exact hblock .inner (by decide) rfl (by decide) rfl
      | thinkEnd =>
        simp only [runPieces, machine_stream.stop, machine_parse.normal .thinkEnd (by decide),
          ParseResult.append, asNormal, nil_append, Piece.text] at hnormal
        rw [← append_assoc] at hnormal
        have hcomm := append_inj_left hnormal (by simp only [length_append]; omega)
        exact not_infix_of_commute _ x rfl hcomm (htool rfl)
      | toolStart => exact hboth toolStartToken .tool (by decide) (by simp) rfl rfl
      | toolEnd => exact hahead rfl rfl rfl
      | char c => exact hahead rfl rfl rfl
    | tool =>
      cases p with
      | thinkStart => exact hblock .tool (by decide) rfl (by decide) rfl
      | toolEnd =>
        exact hboth toolEndToken .inner (by decide) (fun _ => (suffix_append x _).isInfix) rfl rfl
      | thinkEnd => exact hboth thinkEndToken .tool (by decide) (by simp) rfl rfl
      | toolStart => exact hboth toolStartToken .tool (by decide) (by simp) rfl rfl
      | char c => exact hboth [c] .tool (by decide) (by simp) rfl rfl

theorem nested_of_run_eq : ∀ {m : Mode},
    runPieces streamStep m ps = runPieces parseStep m ps → Nested m ps := by
  induction ps with
  | nil => exact fun _ => trivial
  | cons p ps ih =>
    intro m heq
    have hreason := congrArg ParseResult.reasoningText heq
    have hnormal := congrArg ParseResult.normalText heq
    by_cases hbad : m = .tool ∧ p = .thinkEnd
    · obtain ⟨rfl, rfl⟩ := hbad
      refine (diverged ps .tool [] (by decide) (by simp) ?_ hreason).elim
      rw [append_nil, nil_append]
      exact hnormal
    · refine ⟨hbad, ih ?_⟩
      simp only [runPieces, parseStep_eq hbad, ParseResult.append, append_cancel_left_eq]
        at hreason hnormal
      rcases hs : runPieces streamStep (streamStep m p).1 ps with ⟨r, n⟩
      rcases hd : runPieces parseStep (streamStep m p).1 ps with ⟨r', n'⟩
      rw [hs, hd] at hreason hnormal
      simp only at hreason hnormal
      rw [hreason, hnormal]

/-- What the stream returned, and what it still holds, credited to the current mode. -/
def streamed (d : Detector) (chunks : List (List Char)) : ParseResult :=
  let r := parseStream true d chunks
  r.2.append (credit r.1 r.1.buffer)

/-- For every text and every way to cut it into chunks, the final state depends on the text only;
and the stream gives what the one-shot parser does exactly when no end marker is read inside of a
tool section. -/
theorem parseStream_eq_detect_iff (previousContent : List Char) (chunks : List (List Char)) :
    (∀ chunks' : List (List Char), chunks'.flatten = chunks.flatten →
      (parseStream true (Detector.new previousContent) chunks').1 =
        (parseStream true (Detector.new previousContent) chunks).1) ∧
    (streamed (Detector.new previousContent) chunks =
        detectAndParse false (Detector.new previousContent).inReasoning chunks.flatten ↔
      Nested (firstMode (Detector.new previousContent).inReasoning) (pieces chunks.flatten)) := by
  have hsettled := settled_new previousContent
  constructor
  · intro chunks' heq
    rw [parseStream_eq_increment chunks hsettled, parseStream_eq_increment chunks' hsettled, heq]
  · have hstream : streamed (Detector.new previousContent) chunks =
        runPieces streamStep (firstMode (Detector.new previousContent).inReasoning)
          (pieces chunks.flatten) := by
      have htotal := total_eq_run _
        ((Detector.new previousContent).withBuffer chunks.flatten) rfl
      have hmode : ((Detector.new previousContent).withBuffer chunks.flatten).mode =
          firstMode (Detector.new previousContent).inReasoning := by
        change (if ¬ (Detector.new previousContent).inReasoning then Mode.normal else .inner) = _
        unfold firstMode
        cases (Detector.new previousContent).inReasoning <;> rfl
      rw [hmode] at htotal
      simp only [streamed, parseStream_eq_increment chunks hsettled]
      exact htotal
    rw [hstream, detect_eq_parsedFrom, parsedFrom_eq_run]
    exact ⟨nested_of_run_eq, run_eq_of_nested⟩

/-- A block that ends inside of a tool section: the stream keeps the end marker in the normal
text. -/
theorem openTool_differs : ¬ ∀ (previousContent : List Char) (chunks : List (List Char)),
    streamed (Detector.new previousContent) chunks =
      detectAndParse false (Detector.new previousContent).inReasoning chunks.flatten := by
  intro h
  have hdiffer : streamed (Detector.new [])
      ["<|inner_prefix|><|tools_prefix|>[<|inner_suffix|>".toList] ≠
      detectAndParse false (Detector.new []).inReasoning
        (["<|inner_prefix|><|tools_prefix|>[<|inner_suffix|>".toList]).flatten := by decide +kernel
  exact hdiffer (h [] _)

/-- A tool section inside of a block, cut inside of the markers. -/
example : streamed (Detector.new []) ["a<|inner_pre".toList, "fix|>b<|tools_prefix|>".toList,
    "[c]<|tools_suf".toList, "fix|>d<".toList, "|inner_suffix|>e<|".toList] =
    ⟨"bd".toList, "a<|tools_prefix|>[c]<|tools_suffix|>e<|".toList⟩ := by decide +kernel

end Sglang.Parser.Apertus
