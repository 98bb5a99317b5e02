import Sglang.Lib.Regex
import Sglang.Managers.FinishState

/-!
# Stop Patterns on the Tail of the Output

`get_max_seq_length` (`sampling/sampling_params.py`) bounds the characters that a stop pattern can
match, and `Req.tail_str` decodes one token more than that. The pattern is then searched in this
tail only.

- `SubPattern`, `maxLengthFromSubpattern`: the parsed pattern and its bound,
- `Search`: what `re.search` finds,
- `matches_le_maxLength`: no match is longer than the bound, where the repeats are counted,
- `TailReads`: the tail is the whole output, or the repeats are counted and no leading anchor reads
  the start of the tail as the start of the text,
- `search_tailStr_along`: in an output whose tails all read so, each tail matches first where the
  output does.

## Conventions

- `sre_parse.parse` is a parameter, and so are the word characters. Flags, look-around, back
  references and the other anchors are not modelled.
- A set of characters is a predicate.
-/

open List

namespace Sglang.Managers

open Lib.Regex

/-! ## Section 1: The length of a pattern -/

/-- The nodes of `sre_parse` that read one character. `NOT_LITERAL` is what it makes of a set with
one negated character. -/
inductive CharNode where
  | literal (c : Char)
  | notLiteral (c : Char)
  | inSet (charset : Char → Bool)
  | any

inductive AtCode where
  | atBeginning
  | atEnd
  | atBoundary
deriving DecidableEq

abbrev SubPattern := Pattern CharNode AtCode

/-- `MAX_LEN` -/
def regexMaxLen : Nat := 2 ^ 30

mutual

def maxLengthFromNode : Node CharNode AtCode → Nat
  | .char (.literal _) => 1
  | .char (.inSet _) => 1
  | .char .any => 1
  | .group inner => maxLengthFromSubpattern inner
  | .branch branches => maxLengthFromBranches branches
  | .repetition _ _ none _ => regexMaxLen
  | .repetition _ _ (some maxNumRepeat) inner => maxNumRepeat * maxLengthFromSubpattern inner
  | .anchor _ => 0
  -- an unhandled token
  | .char (.notLiteral _) => regexMaxLen

/-- `_max_length_from_subpattern` -/
def maxLengthFromSubpattern : SubPattern → Nat
  | .nil => 0
  | .cons node rest => maxLengthFromNode node + maxLengthFromSubpattern rest

def maxLengthFromBranches : Branches CharNode AtCode → Nat
  | .last p => maxLengthFromSubpattern p
  | .more p rest => max (maxLengthFromSubpattern p) (maxLengthFromBranches rest)

end

section Normalize

variable (parse : List Char → SubPattern)

def getMaxSeqLength (regexStr : List Char) : Nat := maxLengthFromSubpattern (parse regexStr)

/-- The loop over `stop_regex_strs` in `SamplingParams.normalize`. -/
def stopRegexMaxLen (stopRegexStrs : List (List Char)) : Nat :=
  stopRegexStrs.foldl (fun maxLen regexStr => max maxLen (getMaxSeqLength parse regexStr)) 0

theorem foldl_max_le (strs : List (List Char)) (m : Nat) :
    m ≤ strs.foldl (fun maxLen s => max maxLen (getMaxSeqLength parse s)) m ∧
      ∀ s ∈ strs, getMaxSeqLength parse s ≤ strs.foldl
      (fun maxLen s => max maxLen (getMaxSeqLength parse s)) m := by
  induction strs generalizing m with
  | nil => simp
  | cons x strs ih =>
    obtain ⟨hm, hall⟩ := ih (max m (getMaxSeqLength parse x))
    rw [foldl_cons]
    refine ⟨by omega, fun s hs => ?_⟩
    rcases mem_cons.mp hs with rfl | hs
    · omega
    · exact hall s hs

end Normalize

mutual

/-- No repeat without an upper bound has a length that counts. -/
def nodeBounded : Node CharNode AtCode → Bool
  | .char _ => true
  | .anchor _ => true
  | .group inner => patternBounded inner
  | .branch branches => branchesBounded branches
  | .repetition _ _ none inner => maxLengthFromSubpattern inner == 0 && patternBounded inner
  | .repetition _ _ (some maxNumRepeat) inner => maxNumRepeat == 0 || patternBounded inner

def patternBounded : SubPattern → Bool
  | .nil => true
  | .cons node rest => nodeBounded node && patternBounded rest

def branchesBounded : Branches CharNode AtCode → Bool
  | .last p => patternBounded p
  | .more p rest => patternBounded p && branchesBounded rest

end

mutual

theorem node_matches_le {R : Reading CharNode AtCode} : ∀ (x : Node CharNode AtCode) {i j},
    nodeBounded x = true → x.Matches R i j → j ≤ i + maxLengthFromNode x
  | .char t, i, j, _, h => by
    have hj := h.2
    cases t <;> simp only [maxLengthFromNode, regexMaxLen] <;> omega
  | .anchor _, i, j, _, h => by have := h.2; omega
  | .group p, _, _, hb, h => matches_le_maxLength p hb h
  | .branch bs, _, _, hb, h => branches_matches_le bs hb h
  | .repetition _ _ none p, i, j, hb, h => by
    simp only [nodeBounded, Bool.and_eq_true, beq_iff_eq] at hb
    obtain ⟨n, -, -, hn⟩ := h
    have hle := Steps.le_add (w := 0) (fun i j hp => hb.1 ▸ matches_le_maxLength p hb.2 hp) hn
    omega
  | .repetition _ _ (some m) p, i, j, hb, h => by
    simp only [nodeBounded, Bool.or_eq_true, beq_iff_eq] at hb
    obtain ⟨n, -, hhi, hn⟩ := h
    have hnm := hhi m rfl
    rcases hb with rfl | hb
    · obtain rfl : n = 0 := by omega
      exact Nat.le_add_right_of_le (Nat.le_of_eq hn)
    · have hle := Steps.le_add (fun i j => matches_le_maxLength p hb) hn
      have hmul := Nat.mul_le_mul_right (maxLengthFromSubpattern p) hnm
      simp only [maxLengthFromNode]
      omega

theorem matches_le_maxLength {R : Reading CharNode AtCode} : ∀ (p : SubPattern) {i j},
    patternBounded p = true → p.Matches R i j → j ≤ i + maxLengthFromSubpattern p
  | .nil, _, _, _, h => Nat.le_add_right_of_le (Nat.le_of_eq h)
  | .cons x rest, i, j, hb, h => by
    simp only [patternBounded, Bool.and_eq_true] at hb
    obtain ⟨k, hx, hrest⟩ := h
    have hfirst := node_matches_le x hb.1 hx
    have hthen := matches_le_maxLength rest hb.2 hrest
    simp only [maxLengthFromSubpattern]
    omega

theorem branches_matches_le {R : Reading CharNode AtCode} : ∀ (bs : Branches CharNode AtCode) {i j},
    branchesBounded bs = true → bs.Matches R i j → j ≤ i + maxLengthFromBranches bs
  | .last p, _, _, hb, h => matches_le_maxLength p hb h
  | .more p rest, i, j, hb, h => by
    simp only [branchesBounded, Bool.and_eq_true] at hb
    simp only [maxLengthFromBranches]
    rcases h with h | h
    · have := matches_le_maxLength p hb.1 h
      omega
    · have := branches_matches_le rest hb.2 h
      omega

end

/-! ## Section 2: Searching a text -/

section Search

variable (isWord : Char → Bool)

def CharNode.accepts : CharNode → Char → Bool
  | .literal c => (· == c)
  | .notLiteral c => (· != c)
  | .inSet charset => charset
  | .any => (· != '\n')

def wordAt (text : List Char) (k : Nat) : Bool := text[k]?.any isWord

def wordBefore (text : List Char) : Nat → Bool
  | 0 => false
  | k + 1 => wordAt isWord text k

/-- How `re` reads a text. `$` also holds before a final newline. -/
def textReading (text : List Char) : Reading CharNode AtCode where
  reads := fun t k => ∃ c, text[k]? = some c ∧ t.accepts c = true
  holds := fun
    | .atBeginning, k => k = 0
    | .atEnd, k => k = text.length ∨ (k + 1 = text.length ∧ text[k]? = some '\n')
    | .atBoundary, k => wordBefore isWord text k ≠ wordAt isWord text k

/-- `re.search` finds a match. -/
def Search (p : SubPattern) (text : List Char) : Prop :=
  ∃ i j, i ≤ text.length ∧ p.Matches (textReading isWord text) i j

/-- No leading anchor reads the end of `before` as the start of the text. -/
def LeadsPast (p : SubPattern) (before : List Char) : Prop :=
  p.leads .atBeginning = false ∧
    (p.leads .atBoundary = true → ∀ c, before.getLast? = some c → isWord c = false)

variable {isWord} {p : SubPattern} {before text last : List Char}

theorem getElem?_shift (before text : List Char) (k : Nat) :
    (before ++ text)[k + before.length]? = text[k]? := by
  rw [getElem?_append_right (Nat.le_add_left ..), Nat.add_sub_cancel]

theorem reads_shift (t : CharNode) (k : Nat) :
    (textReading isWord (before ++ text)).reads t (k + before.length) ↔
    (textReading isWord text).reads t k := by
  simp only [textReading, getElem?_shift]

theorem holds_shift (a : AtCode) {k : Nat} (hk : 0 < k) :
    (textReading isWord (before ++ text)).holds a (k + before.length) ↔
    (textReading isWord text).holds a k := by
  obtain ⟨k, rfl⟩ := Nat.exists_eq_succ_of_ne_zero hk.ne'
  cases a with
  | atBeginning => simp [textReading]
  | atEnd =>
    simp only [textReading, getElem?_shift, length_append]
    refine or_congr ?_ (and_congr_left' ?_) <;> omega
  | atBoundary =>
    have hprev : k.succ + before.length = (k + before.length) + 1 := by omega
    simp only [textReading, wordAt, getElem?_shift]
    rw [hprev]
    simp only [wordBefore, wordAt, getElem?_shift]

theorem wordBefore_append (text : List Char)
    (h : ∀ c, before.getLast? = some c → isWord c = false) :
    wordBefore isWord (before ++ text) before.length = false := by
  cases hb : before.getLast? with
  | none => simp [getLast?_eq_none_iff.mp hb, wordBefore]
  | some c =>
    obtain ⟨init, rfl⟩ := getLast?_eq_some_iff.mp hb
    simp [wordBefore, wordAt, h c hb]

theorem LeadsPast.holds_iff (h : LeadsPast isWord p before) {a : AtCode} (ha : p.leads a = true) :
    (textReading isWord (before ++ text)).holds a before.length ↔
    (textReading isWord text).holds a 0 := by
  cases a with
  | atBeginning => rw [h.1] at ha; cases ha
  | atEnd =>
    have hget : (before ++ text)[before.length]? = text[0]? := by
      simpa using getElem?_shift before text 0
    simp only [textReading, hget, length_append]
    refine or_congr ?_ (and_congr_left' ?_) <;> omega
  | atBoundary =>
    have hget : (before ++ text)[before.length]? = text[0]? := by
      simpa using getElem?_shift before text 0
    have hbefore := wordBefore_append text (h.2 ha)
    simp only [textReading, wordAt, hget, hbefore]
    rfl

theorem search_append (h : LeadsPast isWord p before) (hs : Search isWord p text) :
    Search isWord p (before ++ text) := by
  obtain ⟨i, j, hi, hm⟩ := hs
  refine ⟨i + before.length, j + before.length, by rw [length_append]; omega,
    Pattern.transfer (g := (· + before.length)) p ⟨fun k _ _ => by omega,
      fun t k _ _ => (reads_shift t k).mpr, fun a k hk _ => (holds_shift a (by omega)).mpr⟩ ?_ hm⟩
  intro a ha hholds
  rcases i.eq_zero_or_pos with rfl | hpos
  · simpa using (h.holds_iff ha).mpr hholds
  · exact (holds_shift a hpos).mpr hholds

theorem search_of_matches (h : LeadsPast isWord p before) {i j : Nat} (hi : before.length ≤ i)
    (hlen : i ≤ (before ++ text).length)
    (hm : p.Matches (textReading isWord (before ++ text)) i j) :
    Search isWord p text := by
  rw [length_append] at hlen
  refine ⟨i - before.length, j - before.length, by omega,
    Pattern.transfer (g := (· - before.length)) p ⟨fun k _ _ => by omega, fun t k hk _ hr => ?_,
      fun a k hk _ hh => ?_⟩ ?_ hm⟩
  · obtain ⟨k, rfl⟩ := Nat.exists_eq_add_of_le' (hi.trans hk)
    rw [Nat.add_sub_cancel]
    exact (reads_shift t k).mp hr
  · obtain ⟨k, rfl⟩ := Nat.exists_eq_add_of_le' (hi.trans hk.le)
    rw [Nat.add_sub_cancel]
    exact (holds_shift a (by omega)).mp hh
  · intro a ha hholds
    obtain ⟨i, rfl⟩ := Nat.exists_eq_add_of_le' hi
    simp only [Nat.add_sub_cancel]
    rcases i.eq_zero_or_pos with rfl | hpos
    · exact (h.holds_iff ha).mp (by simpa using hholds)
    · exact (holds_shift a hpos).mp hholds

theorem search_of_append (hlast : last ≠ []) {i j : Nat} (hj : j < text.length)
    (hm : p.Matches (textReading isWord (text ++ last)) i j) : Search isWord p text := by
  have hpos := length_pos_iff.mpr hlast
  have hget : ∀ k, k < text.length → (text ++ last)[k]? = text[k]? :=
    fun k hk => getElem?_append_left hk
  have hanchor : ∀ a k, k ≤ j → (textReading isWord (text ++ last)).holds a k →
      (textReading isWord text).holds a k := by
    intro a k hk hh
    cases a with
    | atBeginning => exact hh
    | atEnd =>
      simp only [textReading, length_append] at hh
      omega
    | atBoundary =>
      simp only [textReading, wordAt, hget k (by omega)] at hh ⊢
      cases k with
      | zero => exact hh
      | succ k => simpa only [wordBefore, wordAt, hget k (by omega)] using hh
  have hij := Pattern.Matches.le p hm
  refine ⟨i, j, by omega, Pattern.transfer (g := id) p ⟨fun k _ _ => rfl, fun t k _ hk hr => ?_,
    fun a k _ hk => hanchor a k hk⟩ (fun a _ => hanchor a i hij) hm⟩
  simpa only [textReading, hget k (by omega), id_eq] using hr

theorem search_tail_iff (h : LeadsPast isWord p before) (hb : patternBounded p = true)
    (hlast : last ≠ []) (hlen : maxLengthFromSubpattern p ≤ text.length)
    (hnot : ¬ Search isWord p (before ++ text)) :
    Search isWord p (text ++ last) ↔ Search isWord p (before ++ (text ++ last)) := by
  refine ⟨search_append h, fun hs => ?_⟩
  obtain ⟨i, j, hi, hm⟩ := hs
  by_cases hj : j < (before ++ text).length
  · rw [← append_assoc] at hm
    exact absurd (search_of_append hlast hj hm) hnot
  · have hle := matches_le_maxLength p hb hm
    rw [length_append] at hj
    exact search_of_matches h (by omega) hi hm

end Search

/-! ## Section 3: The tail of the output -/

namespace Req

variable (isWord : Char → Bool) (p : SubPattern) (req : Req)

/-- The request after its first `n` output tokens. -/
def after (n : Nat) : Req := { req with outputIds := req.outputIds.take n }

/-- The tokens of the tail, if there are as many. -/
def tailWindow : Nat :=
    max (req.samplingParams.stopStrMaxLen + 1) (req.samplingParams.stopRegexMaxLen + 1)

/-- The tail is the whole output, or the pattern is bounded and its leading anchors do not take the
start of the tail for the start of the text. -/
def TailReads : Prop :=
  req.outputIds.length ≤ req.tailWindow ∨ (patternBounded p = true ∧
    LeadsPast isWord p (req.decode (req.outputIds.take (req.outputIds.length - req.tailWindow))))

/-- When none of the first `n` tokens but the last can have ended a match, the tail matches where
the output does. -/
def TailAgrees (n : Nat) : Prop :=
  (∀ m, 0 < m → m < n → ¬ Search isWord p (req.decode (req.outputIds.take m))) →
    (Search isWord p ((req.after n).tailStr 1) ↔
      Search isWord p (req.decode (req.outputIds.take n)))

variable {isWord p req} {piece : Int → List Char}

theorem length_le_flatMap (hpiece : ∀ t, piece t ≠ []) (ids : List Int) : ids.length ≤
    (ids.flatMap piece).length := by
  induction ids with
  | nil => simp
  | cons t ids ih =>
    have := length_pos_iff.mpr (hpiece t)
    rw [flatMap_cons, length_append, length_cons]
    omega

theorem tailStr_one (req : Req) (h : req.samplingParams.stopRegexStrs ≠ []) :
    req.tailStr 1 = req.decode (req.outputIds.drop (req.outputIds.length - req.tailWindow)) := by
  have hne : ¬ (req.samplingParams.stopStrs.length = 0 ∧
      req.samplingParams.stopRegexStrs.length = 0) :=
    fun h0 => h (length_eq_zero_iff.mp h0.2)
  have hlen : req.stopMatchTailLen 1 = min req.tailWindow req.outputIds.length := rfl
  rw [tailStr, if_neg hne, hlen, lastIds]
  congr 1
  split
  · next h0 =>
    have hpos : 0 < req.tailWindow := by
      rw [tailWindow]
      omega
    rw [length_eq_zero_iff.mp (show req.outputIds.length = 0 by omega), drop_nil]
  · congr 1
    omega

theorem tailAgrees_of_tailReads (hpiece : ∀ t, piece t ≠ [])
    (hdecode : ∀ ids, req.decode ids = ids.flatMap piece)
    (hstrs : req.samplingParams.stopRegexStrs ≠ [])
    (hwindow : maxLengthFromSubpattern p < req.tailWindow) {n : Nat} (hn : n ≤ req.outputIds.length)
    (hreads : (req.after n).TailReads isWord p) : req.TailAgrees isWord p n := by
  intro hnot
  have hids : (req.after n).outputIds = req.outputIds.take n := rfl
  have hlen : (req.after n).outputIds.length = n := by rw [hids, length_take, Nat.min_eq_left hn]
  have htail : (req.after n).tailStr 1 =
      ((req.outputIds.take n).drop (n - req.tailWindow)).flatMap piece := by
    rw [tailStr_one (req.after n) hstrs, hlen, hids]
    exact hdecode _
  rw [htail, hdecode]
  have hw : (req.after n).tailWindow = req.tailWindow := rfl
  rw [TailReads, hlen, hw] at hreads
  rcases hreads with hwhole | ⟨hb, hpast⟩
  · rw [Nat.sub_eq_zero_of_le hwhole, drop_zero]
  by_cases hle : n ≤ req.tailWindow
  · rw [Nat.sub_eq_zero_of_le hle, drop_zero]
  -- what is cut off, the tail without its last token, and this token
  obtain ⟨k, rfl⟩ : ∃ k, n = k + 1 := ⟨n - 1, by omega⟩
  have hlt : k < req.outputIds.length := by omega
  have hsplit : req.outputIds.take (k + 1) = req.outputIds.take k ++ [req.outputIds[k]] :=
    (take_append_getElem hlt).symm
  have hcut : k + 1 - req.tailWindow ≤ k := by omega
  have hklen : (req.outputIds.take k).length = k := by rw [length_take]; omega
  have hdrop : (req.outputIds.take (k + 1)).drop (k + 1 - req.tailWindow) =
      (req.outputIds.take k).drop (k + 1 - req.tailWindow) ++ [req.outputIds[k]] := by
    rw [hsplit, drop_append_of_le_length (by rw [hklen]; exact hcut)]
  have hbefore : (req.after (k + 1)).decode
    ((req.after (k + 1)).outputIds.take (k + 1 - req.tailWindow)) =
    ((req.outputIds.take k).take (k + 1 - req.tailWindow)).flatMap piece := by
    rw [hids, take_take, take_take, Nat.min_eq_left (by omega), Nat.min_eq_left hcut]
    exact hdecode _
  rw [hbefore] at hpast
  have hmiddle := length_le_flatMap hpiece ((req.outputIds.take k).drop (k + 1 - req.tailWindow))
  rw [length_drop, hklen] at hmiddle
  have hprev := hnot k (by omega) (Nat.lt_succ_self k)
  rw [hdecode, ← take_append_drop (k + 1 - req.tailWindow) (req.outputIds.take k),
    flatMap_append] at hprev
  have hall : (req.outputIds.take (k + 1)).flatMap piece =
      ((req.outputIds.take k).take (k + 1 - req.tailWindow)).flatMap piece ++
        (((req.outputIds.take k).drop (k + 1 - req.tailWindow)).flatMap piece ++
          piece req.outputIds[k]) := by
    rw [← append_assoc, ← flatMap_append, take_append_drop, hsplit, flatMap_append,
      flatMap_singleton]
  rw [hdrop, hall, flatMap_append, flatMap_singleton]
  exact search_tail_iff hpast hb (hpiece _) (by omega) hprev

end Req

/-- In an output that comes one token at a time and whose tails all read as the whole output, each
tail matches where the output does, until one matches. -/
theorem search_tailStr_along (isWord : Char → Bool) (parse : List Char → SubPattern) (req : Req)
    {piece : Int → List Char} (hpiece : ∀ t, piece t ≠ [])
    (hdecode : ∀ ids, req.decode ids = ids.flatMap piece)
    (hnorm : req.samplingParams.stopRegexMaxLen =
      stopRegexMaxLen parse req.samplingParams.stopRegexStrs)
    {stopRegex : List Char} (hstop : stopRegex ∈ req.samplingParams.stopRegexStrs)
    (hreads : ∀ n ≤ req.outputIds.length, (req.after n).TailReads isWord (parse stopRegex)) :
    ∀ n ≤ req.outputIds.length, req.TailAgrees isWord (parse stopRegex) n := by
  intro n hn
  have hmax : getMaxSeqLength parse stopRegex ≤ req.samplingParams.stopRegexMaxLen := by
    rw [hnorm]
    exact (foldl_max_le parse _ 0).2 stopRegex hstop
  refine Req.tailAgrees_of_tailReads hpiece hdecode (ne_nil_of_mem hstop) ?_ hn (hreads n hn)
  rw [getMaxSeqLength] at hmax
  rw [Req.tailWindow]
  omega

/-- A request with one stop pattern of at most one character, and its output, one character a
token. -/
def sampleRegexReq (outputIds : List Int) : Req where
  samplingParams := ⟨8, false, [], [], [['r']], 0, 1⟩
  eosTokenIds := []
  tokenizer := some ⟨fun ids => ids.flatMap fun t => [Char.ofNat t.toNat], none, []⟩
  vocabSize := 128
  grammar := none
  decodedText := []
  outputIds := outputIds
  finishedReason := none
  finishedLen := none
  toFinish := none

/-- An anchor and then a `b`. -/
def anchoredB (a : AtCode) : SubPattern := .cons (.anchor a) (.cons (.char (.literal 'b')) .nil)

/-- `\bb` after two blanks. -/
theorem search_tailStr_blanks :
    (sampleRegexReq [32, 32, 98]).TailAgrees Char.isAlphanum (anchoredB .atBoundary) 3 :=
  @search_tailStr_along Char.isAlphanum (fun _ => anchoredB .atBoundary)
    (sampleRegexReq [32, 32, 98])
    (fun t => [Char.ofNat t.toNat]) (by simp) (fun _ => rfl) rfl ['r'] (mem_singleton.mpr rfl) (by
      intro n hn
      have hcases : n ≤ 2 ∨ n = 3 := by
        have : n ≤ 3 := hn
        omega
      rcases hcases with hn | rfl
      · refine .inl ((length_take_le n _).trans hn)
      · refine .inr ⟨rfl, rfl, fun _ c hc => ?_⟩
        obtain rfl : ' ' = c := Option.some.inj hc
        rfl) 3 le_rfl

theorem search_beginning_iff {isWord : Char → Bool} {text : List Char} :
    Search isWord (anchoredB .atBeginning) text ↔ text[0]? = some 'b' := by
  constructor
  · rintro ⟨i, j, -, k, ⟨hi, rfl⟩, l, ⟨⟨c, hc, hb⟩, -⟩, -⟩
    obtain rfl : k = 0 := hi
    rw [hc, show c = 'b' from beq_iff_eq.mp hb]
  · intro h
    exact ⟨0, 1, Nat.zero_le _, 0, ⟨rfl, rfl⟩, 1, ⟨⟨'b', h, rfl⟩, rfl⟩, rfl⟩

/-- `^b` on `a`, `b` and `c`: the last two tokens match, and the output does not. -/
theorem not_tailAgrees : ∃ (parse : List Char → SubPattern) (req : Req) (piece : Int → List Char),
    (∀ t, piece t ≠ []) ∧ (∀ ids, req.decode ids = ids.flatMap piece) ∧
    req.samplingParams.stopRegexMaxLen = stopRegexMaxLen parse req.samplingParams.stopRegexStrs ∧
    ['r'] ∈ req.samplingParams.stopRegexStrs ∧
    ¬ ∀ n ≤ req.outputIds.length, req.TailAgrees Char.isAlphanum (parse ['r']) n := by
  refine ⟨fun _ => anchoredB .atBeginning, sampleRegexReq [97, 98, 99],
    fun t => [Char.ofNat t.toNat], by simp, fun _ => rfl, rfl, mem_singleton.mpr rfl,
      fun hall => ?_⟩
  have hiff := hall 3 le_rfl (fun m hpos hm => by
    rw [search_beginning_iff]
    obtain rfl | rfl : m = 1 ∨ m = 2 := by omega
    all_goals decide)
  rw [search_beginning_iff, search_beginning_iff] at hiff
  exact absurd (hiff.mp (by decide)) (by decide)

end Sglang.Managers
