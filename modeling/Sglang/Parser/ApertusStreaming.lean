import Sglang.Parser.Apertus

/-!
# Apertus 2509: Chunks and Blocks

- `parseStream_eq_increment`: with `stream_reasoning`, the state and the texts after the last chunk
  depend on the whole text only,
- `total`: what the stream gives for a text, with what is held at its end,
- `parsedFrom`: what the one-shot parser gives, by first occurrences of the markers.
-/

namespace Sglang.Parser.Apertus

open List Option
open Lib

/-! ## Section 1: Markers and held ends -/

theorem led_thinkStart : Led '<' thinkStartToken := ⟨_, rfl, by decide⟩

theorem led_thinkEnd : Led '<' thinkEndToken := ⟨_, rfl, by decide⟩

theorem led_toolStart : Led '<' toolStartToken := ⟨_, rfl, by decide⟩

theorem led_toolEnd : Led '<' toolEndToken := ⟨_, rfl, by decide⟩

/-- The partial token is the held end: it is the only end that begins the token. -/
theorem endsWithPartialToken_eq {c : Char} {token : List Char} (hled : Led c token)
    (buffer : List Char) : endsWithPartialToken buffer token = (hold token buffer).length := by
  have hne : token ≠ [] := by
    obtain ⟨q, rfl, _⟩ := hled
    simp
  obtain ⟨hpre, hlt⟩ := @hold_isPrefix _ _ token buffer hne
  obtain ⟨e, he⟩ := hold_suffix token buffer
  -- A candidate of the loop is the held end.
  have honly : ∀ i ∈ List.range' 1 (min (buffer.length + 1) token.length - 1),
      buffer.drop (buffer.length - i) <+: token → i = (hold token buffer).length := by
    intro i hi hcand
    simp only [mem_range'_1] at hi
    have hlen : (buffer.drop (buffer.length - i)).length = i := by
      rw [length_drop]
      omega
    have hheld := hled.hold_eq (take_append_drop (buffer.length - i) buffer).symm hcand
      (by omega) (by
        intro hnil
        rw [hnil, length_nil] at hlen
        omega)
    rw [hheld, hlen]
  unfold endsWithPartialToken
  cases hfind : (List.range' 1 (min (buffer.length + 1) token.length - 1)).find? fun i =>
      buffer.drop (buffer.length - i) <+: token with
  | some i =>
    have hcand := find?_some hfind
    exact honly i (mem_of_find?_eq_some hfind) (by simpa using hcand)
  | none =>
    rw [find?_eq_none] at hfind
    by_contra hpos
    have hlenb : e.length + (hold token buffer).length = buffer.length := by
      rw [← length_append, he]
    refine hfind (hold token buffer).length ?_ ?_
    · simp only [mem_range'_1]
      simp only [getD_none] at hpos
      omega
    · have hdrop := congrArg (List.drop e.length) he
      rw [drop_left, show e.length = buffer.length - (hold token buffer).length by omega] at hdrop
      simpa [← hdrop] using hpre

/-- What is put out when `h` is held. -/
def freed (buffer h : List Char) : List Char := buffer.take (buffer.length - h.length)

theorem freed_append {buffer h : List Char} (hs : h <:+ buffer) : freed buffer h ++ h = buffer := by
  obtain ⟨e, rfl⟩ := hs
  simp [freed]

theorem freed_append_left {y h : List Char} (hs : h <:+ y) (e : List Char) :
    freed (e ++ y) h = e ++ freed y h := by
  refine append_cancel_right (?_ : freed (e ++ y) h ++ h = e ++ freed y h ++ h)
  rw [freed_append (hs.trans (suffix_append e y)), append_assoc, freed_append hs]

theorem splitHeld_eq {buffer h : List Char} (hs : h <:+ buffer) :
    splitHeld buffer h.length = (freed buffer h, h) := by
  obtain ⟨e, rfl⟩ := hs
  unfold splitHeld freed
  split
  · next h0 => simp [length_eq_zero_iff.mp h0]
  · simp

def longer (h h' : List Char) : List Char := if h'.length ≤ h.length then h else h'

theorem length_longer (h h' : List Char) : (longer h h').length = max h.length h'.length := by
  unfold longer
  split <;> omega

theorem longer_suffix {h h' b : List Char} (hs : h <:+ b) (hs' : h' <:+ b) :
    longer h h' <:+ b ∧ h <:+ longer h h' ∧ h' <:+ longer h h' := by
  unfold longer
  split
  · next hle => exact ⟨hs, suffix_rfl, suffix_of_suffix_length_le hs' hs hle⟩
  · next hlt =>
    exact ⟨hs', suffix_of_suffix_length_le hs hs' (not_le.mp hlt).le, suffix_rfl⟩

/-! ## Section 2: One iteration -/

theorem find_of_cut {p t a b : List Char} (h : cut p t = some (a, b)) :
    find p t = some a.length ∧ t.take a.length = a ∧ t.drop a.length = p ++ b ∧
      t.take (a.length + p.length) = a ++ p ∧ t.drop (a.length + p.length) = b := by
  have heq := cut_eq h
  refine ⟨by rw [find_eq_cut, h]; rfl, ?_, ?_, ?_, ?_⟩
  · rw [heq, append_assoc, take_left]
  · rw [heq, append_assoc, drop_left]
  · rw [heq, ← length_append, take_left]
  · rw [heq, ← length_append, drop_left]

theorem find_of_cut_none {p t : List Char} (h : cut p t = none) : find p t = none := by
  rw [find_eq_cut, h]
  rfl

variable {d : Detector}

theorem iterate_normal (hd : d.inReasoning = false) :
    iterate true d =
      match cut thinkStartToken d.buffer with
      | none => (.stop, { d with buffer := hold thinkStartToken d.buffer },
          ⟨[], freed d.buffer (hold thinkStartToken d.buffer)⟩)
      | some (a, r) => (.go, ⟨true, false, [], r⟩, ⟨[], a⟩) := by
  unfold iterate
  rw [if_pos (by simp [hd])]
  cases hcut : cut thinkStartToken d.buffer with
  | none =>
    simp only [find_of_cut_none hcut, endsWithPartialToken_eq led_thinkStart,
      splitHeld_eq (hold_suffix _ _)]
  | some r =>
    obtain ⟨hfind, htake, _, _, hdrop⟩ := find_of_cut hcut
    simp only [hfind, htake, hdrop]

theorem iterate_tool (hd : d.inReasoning = true) (ht : d.inInnerTool = true) :
    iterate true d =
      match cut toolEndToken d.buffer with
      | none => (.stop, { d with buffer := hold toolEndToken d.buffer },
          ⟨[], freed d.buffer (hold toolEndToken d.buffer)⟩)
      | some (a, r) =>
        (.go, { d with inInnerTool := false, buffer := r }, ⟨[], a ++ toolEndToken⟩) := by
  unfold iterate
  rw [if_neg (by simp [hd]), if_pos ht]
  cases hcut : cut toolEndToken d.buffer with
  | none =>
    simp only [find_of_cut_none hcut, endsWithPartialToken_eq led_toolEnd,
      splitHeld_eq (hold_suffix _ _)]
  | some r =>
    obtain ⟨hfind, _, _, htake, hdrop⟩ := find_of_cut hcut
    simp only [hfind, htake, hdrop]

/-- The end that is held inside of a block. -/
def heldInner (b : List Char) : List Char := longer (hold thinkEndToken b) (hold toolStartToken b)

theorem iterate_inner (hd : d.inReasoning = true) (ht : d.inInnerTool = false) :
    iterate true d =
      match cut toolStartToken d.buffer, cut thinkEndToken d.buffer with
      | none, none => (.stop, { d with buffer := heldInner d.buffer },
          ⟨freed d.buffer (heldInner d.buffer), []⟩)
      | none, some (a, r) => (.go, { d with inReasoning := false, buffer := r }, ⟨a, []⟩)
      | some (a, r), none =>
        (.go, { d with inInnerTool := true, buffer := toolStartToken ++ r }, ⟨a, []⟩)
      | some (a, r), some (a', r') =>
        if a'.length ≤ a.length then (.go, { d with inReasoning := false, buffer := r' }, ⟨a', []⟩)
        else (.go, { d with inInnerTool := true, buffer := toolStartToken ++ r }, ⟨a, []⟩) := by
  unfold iterate
  rw [if_neg (by simp [hd]), if_neg (by simp [ht])]
  cases htool : cut toolStartToken d.buffer with
  | none =>
    cases hend : cut thinkEndToken d.buffer with
    | none =>
      have hsuffix := longer_suffix (hold_suffix thinkEndToken d.buffer)
        (hold_suffix toolStartToken d.buffer)
      simp only [find_of_cut_none htool, find_of_cut_none hend,
        endsWithPartialToken_eq led_toolStart, endsWithPartialToken_eq led_thinkEnd, if_true,
        heldInner, ← length_longer,
        splitHeld_eq hsuffix.1]
    | some r =>
      obtain ⟨hfind, htake, _, _, hdrop⟩ := find_of_cut hend
      simp only [find_of_cut_none htool, hfind, endBlock, htake, hdrop, if_true]
  | some r =>
    obtain ⟨hfind, htake, hdrop, _, _⟩ := find_of_cut htool
    cases hend : cut thinkEndToken d.buffer with
    | none => simp only [hfind, find_of_cut_none hend, startTool, htake, hdrop, if_true]
    | some r' =>
      obtain ⟨hfind', htake', _, _, hdrop'⟩ := find_of_cut hend
      simp only [hfind, hfind', startTool, endBlock, htake, htake', hdrop, hdrop', if_true]

/-! ## Section 3: Chunks -/

/-- Text that is credited to the current mode. -/
def credit (d : Detector) (e : List Char) : ParseResult :=
  if d.inReasoning ∧ ¬ d.inInnerTool then ⟨e, []⟩ else ⟨[], e⟩

/-- The markers that the current mode follows. -/
def markers (d : Detector) : List (List Char) :=
  if ¬ d.inReasoning then [thinkStartToken]
  else if d.inInnerTool then [toolEndToken]
  else [toolStartToken, thinkEndToken]

def Detector.withBuffer (d : Detector) (b : List Char) : Detector := { d with buffer := b }

variable {d' : Detector} {out : ParseResult} (k : Kind)

theorem iterate_append (h : iterate true d = (.go, d', out))
    (x : List Char) : iterate true (d.withBuffer (d.buffer ++ x)) =
      (.go, d'.withBuffer (d'.buffer ++ x), out) := by
  cases hd : d.inReasoning with
  | false =>
    rw [iterate_normal hd] at h
    rw [iterate_normal (by exact hd)]
    cases hcut : cut thinkStartToken d.buffer with
    | none => simp [hcut] at h
    | some r =>
      simp only [hcut, Prod.mk.injEq, true_and] at h
      obtain ⟨rfl, rfl⟩ := h
      simp only [Detector.withBuffer, cut_append hcut]
  | true =>
    cases ht : d.inInnerTool with
    | true =>
      rw [iterate_tool hd ht] at h
      rw [iterate_tool (by exact hd) (by exact ht)]
      cases hcut : cut toolEndToken d.buffer with
      | none => simp [hcut] at h
      | some r =>
        simp only [hcut, Prod.mk.injEq, true_and] at h
        obtain ⟨rfl, rfl⟩ := h
        simp only [Detector.withBuffer, cut_append hcut]
    | false =>
      rw [iterate_inner hd ht] at h
      rw [iterate_inner (by exact hd) (by exact ht)]
      simp only [Detector.withBuffer] at h ⊢
      cases htool : cut toolStartToken d.buffer with
      | none =>
        cases hend : cut thinkEndToken d.buffer with
        | none => simp [htool, hend] at h
        | some r =>
          simp only [htool, hend, Prod.mk.injEq, true_and] at h
          obtain ⟨rfl, rfl⟩ := h
          rw [cut_append hend]
          cases htool' : cut toolStartToken (d.buffer ++ x) with
          | none => rfl
          | some r' =>
            -- A tool section that more text completes starts after the end of the block.
            have hlt := cut_append_later hend htool (by decide) htool'
            simp only [if_pos hlt.le]
      | some r =>
        rw [cut_append htool]
        cases hend : cut thinkEndToken d.buffer with
        | none =>
          simp only [htool, hend, Prod.mk.injEq, true_and] at h
          obtain ⟨rfl, rfl⟩ := h
          cases hend' : cut thinkEndToken (d.buffer ++ x) with
          | none => simp
          | some r' =>
            have hlt := cut_append_later htool hend (by decide) hend'
            simp only [if_neg (not_le.mpr hlt), append_assoc]
        | some r' =>
          rw [cut_append hend]
          simp only [htool, hend] at h
          split at h
          · next hle =>
            simp only [Prod.mk.injEq, true_and] at h
            obtain ⟨rfl, rfl⟩ := h
            simp only [if_pos hle]
          · next hle =>
            simp only [Prod.mk.injEq, true_and] at h
            obtain ⟨rfl, rfl⟩ := h
            simp only [if_neg hle, append_assoc]

/-- Text in which no marker of the mode starts goes to the output. -/
theorem iterate_shift {e y : List Char}
    (hcut : ∀ m ∈ markers d, cut m (e ++ y) = (cut m y).map fun r => (e ++ r.1, r.2))
    (hhold : ∀ m ∈ markers d, hold m (e ++ y) = hold m y) :
    iterate true (d.withBuffer (e ++ y)) =
      ((iterate true (d.withBuffer y)).1, (iterate true (d.withBuffer y)).2.1,
        (credit d e).append (iterate true (d.withBuffer y)).2.2) := by
  cases hd : d.inReasoning with
  | false =>
    rw [iterate_normal (by exact hd), iterate_normal (by exact hd)]
    have hcut := hcut thinkStartToken (by simp [markers, hd])
    have hhold := hhold thinkStartToken (by simp [markers, hd])
    simp only [Detector.withBuffer, hcut, hhold, freed_append_left (hold_suffix _ y)]
    cases cut thinkStartToken y <;> simp [credit, hd, ParseResult.append]
  | true =>
    cases ht : d.inInnerTool with
    | true =>
      rw [iterate_tool (by exact hd) (by exact ht), iterate_tool (by exact hd) (by exact ht)]
      have hcut := hcut toolEndToken (by simp [markers, hd, ht])
      have hhold := hhold toolEndToken (by simp [markers, hd, ht])
      simp only [Detector.withBuffer, hcut, hhold, freed_append_left (hold_suffix _ y)]
      cases cut toolEndToken y <;> simp [credit, hd, ht, ParseResult.append]
    | false =>
      rw [iterate_inner (by exact hd) (by exact ht), iterate_inner (by exact hd) (by exact ht)]
      have hcutS := hcut toolStartToken (by simp [markers, hd, ht])
      have hcutE := hcut thinkEndToken (by simp [markers, hd, ht])
      have hholdS := hhold toolStartToken (by simp [markers, hd, ht])
      have hholdE := hhold thinkEndToken (by simp [markers, hd, ht])
      have hsuffix := longer_suffix (hold_suffix thinkEndToken y) (hold_suffix toolStartToken y)
      simp only [Detector.withBuffer, hcutS, hcutE, hholdS, hholdE, heldInner,
        freed_append_left hsuffix.1]
      cases cut toolStartToken y with
      | none => cases cut thinkEndToken y <;> simp [credit, hd, ht, ParseResult.append]
      | some r =>
        cases cut thinkEndToken y with
        | none => simp [credit, hd, ht, ParseResult.append]
        | some r' =>
          simp only [map_some, length_append, Nat.add_le_add_iff_left]
          split <;> simp [credit, hd, ht, ParseResult.append]

/-- Where the loop returns, no marker of the mode is in the buffer, and what is kept has every
beginning of one. -/
theorem iterate_stop (h : iterate true d = (.stop, d', out)) :
    ∃ e k, d.buffer = e ++ k ∧ d' = d.withBuffer k ∧ out = credit d e ∧
      ∀ m ∈ markers d, cut m d.buffer = none ∧ hold m d.buffer <:+ k := by
  cases hd : d.inReasoning with
  | false =>
    rw [iterate_normal hd] at h
    cases hcut : cut thinkStartToken d.buffer with
    | some r => simp [hcut] at h
    | none =>
      simp only [hcut, Prod.mk.injEq, true_and] at h
      obtain ⟨rfl, rfl⟩ := h
      refine ⟨_, _, (freed_append (hold_suffix thinkStartToken d.buffer)).symm, rfl, ?_, ?_⟩
      · simp [credit, hd]
      · simp [markers, hd, hcut]
  | true =>
    cases ht : d.inInnerTool with
    | true =>
      rw [iterate_tool hd ht] at h
      cases hcut : cut toolEndToken d.buffer with
      | some r => simp [hcut] at h
      | none =>
        simp only [hcut, Prod.mk.injEq, true_and] at h
        obtain ⟨rfl, rfl⟩ := h
        refine ⟨_, _, (freed_append (hold_suffix toolEndToken d.buffer)).symm, rfl, ?_, ?_⟩
        · simp [credit, hd, ht]
        · simp [markers, hd, ht, hcut]
    | false =>
      rw [iterate_inner hd ht] at h
      cases htool : cut toolStartToken d.buffer with
      | some r =>
        cases hend : cut thinkEndToken d.buffer with
        | none => simp [htool, hend] at h
        | some r' =>
          simp only [htool, hend] at h
          split at h <;> simp at h
      | none =>
        cases hend : cut thinkEndToken d.buffer with
        | some r' => simp [htool, hend] at h
        | none =>
          simp only [htool, hend, Prod.mk.injEq, true_and] at h
          obtain ⟨rfl, rfl⟩ := h
          have hsuffix := longer_suffix (hold_suffix thinkEndToken d.buffer)
            (hold_suffix toolStartToken d.buffer)
          refine ⟨_, _, (freed_append hsuffix.1).symm, rfl, ?_, ?_⟩
          · simp [credit, hd, ht, heldInner]
          · simp [markers, hd, ht, htool, hend, hsuffix.2.1, hsuffix.2.2]

theorem loop_of_stop (h : iterate true d = (.stop, d', out)) :
    loop true d = (d', out) := by
  rw [loop]
  split
  · next heq =>
    rw [h] at heq
    cases heq
    rfl
  · next heq =>
    rw [h] at heq
    cases heq

theorem loop_of_go (h : iterate true d = (.go, d', out)) :
    loop true d = ((loop true d').1, out.append (loop true d').2) := by
  rw [loop]
  split
  · next heq =>
    rw [h] at heq
    cases heq
  · next heq =>
    rw [h] at heq
    cases heq
    rfl

theorem loop_shift {e y : List Char}
    (hcut : ∀ m ∈ markers d, cut m (e ++ y) = (cut m y).map fun r => (e ++ r.1, r.2))
    (hhold : ∀ m ∈ markers d, hold m (e ++ y) = hold m y) :
    loop true (d.withBuffer (e ++ y)) =
      ((loop true (d.withBuffer y)).1, (credit d e).append (loop true (d.withBuffer y)).2) := by
  have hshift := iterate_shift hcut hhold
  rcases hiter : iterate true (d.withBuffer y) with ⟨next, d', out⟩
  rw [hiter] at hshift
  cases next with
  | stop => rw [loop_of_stop hshift, loop_of_stop hiter]
  | go => rw [loop_of_go hshift, loop_of_go hiter, ParseResult.append_assoc]

/-- The loop over more text is the loop over what was kept of the first, and more. -/
theorem loop_append (x : List Char) : ∀ (n : Nat) (d : Detector), d.size = n →
    loop true (d.withBuffer (d.buffer ++ x)) =
      ((loop true ((loop true d).1.withBuffer ((loop true d).1.buffer ++ x))).1,
        (loop true d).2.append
          (loop true ((loop true d).1.withBuffer ((loop true d).1.buffer ++ x))).2) := by
  intro n
  induction n using Nat.strong_induction_on with
  | _ n ih =>
    rintro d rfl
    rcases hiter : iterate true d with ⟨next, d', out⟩
    cases next with
    | stop =>
      obtain ⟨e, k, hbuf, rfl, rfl, hmarkers⟩ := iterate_stop hiter
      rw [loop_of_stop hiter]
      change _ = ((loop true (d.withBuffer (k ++ x))).1,
        (credit d e).append (loop true (d.withBuffer (k ++ x))).2)
      rw [hbuf, append_assoc]
      apply loop_shift
      · intro m hm
        obtain ⟨hnone, hheld⟩ := hmarkers m hm
        rw [hbuf] at hnone hheld
        rw [← append_assoc]
        exact cut_hold hnone hheld x
      · intro m hm
        obtain ⟨_, hheld⟩ := hmarkers m hm
        rw [hbuf] at hheld
        rw [← append_assoc]
        exact hold_append hheld x
    | go =>
      have hsize := iterate_size true d (by rw [hiter])
      rw [hiter] at hsize
      rw [loop_of_go (iterate_append hiter x), loop_of_go hiter, ih _ hsize d' rfl,
        ParseResult.append_assoc]

def Settled (d : Detector) : Prop := loop true d = (d, ⟨[], []⟩)

theorem settled_loop (d : Detector) : Settled (loop true d).1 := by
  have happend := loop_append [] d.size d rfl
  simp only [Detector.withBuffer, append_nil] at happend
  have hstate := congrArg Prod.fst happend
  have hout := congrArg Prod.snd happend
  have hempty : (loop true (loop true d).1).2 = ⟨[], []⟩ := by
    rcases hr : (loop true (loop true d).1).2 with ⟨r, n⟩
    dsimp only at hout
    rw [hr] at hout
    have hreason := congrArg ParseResult.reasoningText hout
    have hnormal := congrArg ParseResult.normalText hout
    simp only [ParseResult.append, self_eq_append_right] at hreason hnormal
    rw [hreason, hnormal]
  exact Prod.ext hstate.symm hempty

/-- The state and the texts after the last chunk depend on the whole text only. -/
theorem parseStream_eq_increment (chunks : List (List Char)) : ∀ {d : Detector}, Settled d →
    parseStream true d chunks = parseStreamingIncrement true d chunks.flatten := by
  induction chunks with
  | nil =>
    intro d hd
    simp only [parseStream, streamChunks, parseStreamingIncrement, flatten_nil, append_nil]
    exact hd.symm
  | cons chunk chunks ih =>
    intro d _
    simp only [parseStream] at ih ⊢
    rw [streamChunks]
    simp only [parseStreamingIncrement, flatten_cons]
    rw [ih (settled_loop _), parseStreamingIncrement]
    have happend := loop_append chunks.flatten _ (d.withBuffer (d.buffer ++ chunk)) rfl
    simp only [Detector.withBuffer, append_assoc] at happend
    exact happend.symm

theorem settled_new (previousContent : List Char) : Settled (Detector.new previousContent) := by
  unfold Settled
  cases hd : (Detector.new previousContent).inReasoning with
  | false =>
    apply loop_of_stop
    rw [iterate_normal hd]
    rfl
  | true =>
    apply loop_of_stop
    rw [iterate_inner hd rfl]
    rfl

/-! ## Section 4: Blocks and tool sections -/

/-- What the stream gives for a buffer, with what is held at its end. -/
def total (d : Detector) : ParseResult :=
  (loop true d).2.append (credit (loop true d).1 (loop true d).1.buffer)

theorem total_go (h : iterate true d = (.go, d', out)) :
    total d = out.append (total d') := by
  unfold total
  rw [loop_of_go h, ParseResult.append_assoc]

theorem total_stop (h : iterate true d = (.stop, d', out)) :
    total d = credit d d.buffer := by
  unfold total
  rw [loop_of_stop h]
  obtain ⟨e, k, hbuf, rfl, rfl, _⟩ := iterate_stop h
  rw [hbuf]
  change (credit d e).append (credit d k) = credit d (e ++ k)
  unfold credit
  split <;> simp [ParseResult.append]

def parsed (blocks : List (Kind × List Char)) : ParseResult :=
    ⟨join .reasoning blocks, join .text blocks⟩

theorem join_append (bs bs' : List (Kind × List Char)) :
    join k (bs ++ bs') = join k bs ++ join k bs' := by
  simp [join]

theorem parsed_append (bs bs' : List (Kind × List Char)) :
    parsed (bs ++ bs') = (parsed bs).append (parsed bs') := by
  simp only [parsed, join_append, ParseResult.append]

theorem parsed_text (t : List Char) : parsed [(.text, t)] = ⟨[], t⟩ := by simp [parsed, join]

theorem parsed_reasoning (t : List Char) : parsed [(.reasoning, t)] = ⟨t, []⟩ := by
  simp [parsed, join]

theorem parsed_before (a : List Char) :
    parsed (if a.length > 0 then [(k, a)] else []) = parsed [(k, a)] := by
  split
  · rfl
  · next h =>
    obtain rfl : a = [] := length_eq_zero_iff.mp (Nat.eq_zero_of_not_pos h)
    cases k <;> rfl

theorem split_none {t : List Char} (h : cut toolStartToken t = none) :
    parsed (splitInnerReasoning t) = ⟨t, []⟩ := by
  rw [splitInnerReasoning]
  simp only [find_of_cut_none h]
  split
  · exact parsed_reasoning t
  · next hnil => simp [not_not.mp hnil, parsed, join]

theorem split_open {t a r : List Char} (h : cut toolStartToken t = some (a, r))
    (hend : cut toolEndToken (toolStartToken ++ r) = none) :
    parsed (splitInnerReasoning t) = ⟨a, toolStartToken ++ r⟩ := by
  obtain ⟨hfind, htake, hdrop, _, _⟩ := find_of_cut h
  have hnone : find toolEndToken (t.drop a.length) = none := by
    rw [hdrop]
    exact find_of_cut_none hend
  rw [splitInnerReasoning]
  simp only [hfind]
  split
  · rw [parsed_append, htake, parsed_before, parsed_reasoning, hdrop, parsed_text]
    simp [ParseResult.append]
  · next heq =>
    rw [hnone] at heq
    cases heq

theorem split_closed {t a r c r' : List Char} (h : cut toolStartToken t = some (a, r))
    (hend : cut toolEndToken (toolStartToken ++ r) = some (c, r')) :
    parsed (splitInnerReasoning t) =
      ParseResult.append ⟨a, c ++ toolEndToken⟩ (parsed (splitInnerReasoning r')) := by
  obtain ⟨hfind, htake, hdrop, _, _⟩ := find_of_cut h
  obtain ⟨hfind', _, _, htake', hdrop'⟩ := find_of_cut hend
  have hsome : find toolEndToken (t.drop a.length) = some c.length := by
    rw [hdrop]
    exact hfind'
  rw [splitInnerReasoning]
  simp only [hfind]
  split
  · next heq =>
    rw [hsome] at heq
    cases heq
  · next e heq =>
    rw [hsome] at heq
    cases heq
    rw [Nat.add_assoc, ← drop_drop, hdrop, hdrop', htake', parsed_append, parsed_append, htake,
      parsed_before, parsed_reasoning, parsed_text]
    simp [ParseResult.append]

theorem blockLoop_none {t : List Char} (h : cut thinkStartToken t = none) :
    parsed (blockLoop t) = ⟨[], t⟩ := by
  rw [blockLoop]
  split
  · exact parsed_text t
  · next heq =>
    rw [find_of_cut_none h] at heq
    cases heq

theorem blockLoop_last {t a r : List Char} (h : cut thinkStartToken t = some (a, r))
    (hend : cut thinkEndToken r = none) :
    parsed (blockLoop t) = ParseResult.append ⟨[], a⟩ (parsed (splitInnerReasoning r)) := by
  obtain ⟨hfind, htake, _, _, hdrop⟩ := find_of_cut h
  rw [blockLoop]
  split
  · next heq =>
    rw [hfind] at heq
    cases heq
  · next s heq =>
    rw [hfind] at heq
    cases heq
    simp only [hdrop]
    split
    · rw [parsed_append, parsed_append, htake, parsed_before, parsed_text, parsed_text]
      simp [ParseResult.append]
    · next heq =>
      rw [hdrop, find_of_cut_none hend] at heq
      cases heq

theorem blockLoop_block {t a r b r' : List Char} (h : cut thinkStartToken t = some (a, r))
    (hend : cut thinkEndToken r = some (b, r')) :
    parsed (blockLoop t) = ParseResult.append ⟨[], a⟩
      ((parsed (splitInnerReasoning b)).append (parsed (blockLoop r'))) := by
  obtain ⟨hfind, htake, _, _, hdrop⟩ := find_of_cut h
  obtain ⟨hfind', htake', _, _, hdrop'⟩ := find_of_cut hend
  rw [blockLoop]
  split
  · next heq =>
    rw [hfind] at heq
    cases heq
  · next s heq =>
    rw [hfind] at heq
    cases heq
    simp only [hdrop]
    split
    · next heq =>
      rw [hdrop, hfind'] at heq
      cases heq
    · next e heq =>
      rw [hdrop, hfind'] at heq
      cases heq
      rw [parsed_append, parsed_append, htake, parsed_before, parsed_text, htake', hdrop',
        ParseResult.append_assoc]

/-- What the one-shot parser finds from inside of a block or from outside. -/
def parsedFrom (inReasoning : Bool) (t : List Char) : ParseResult :=
  if inReasoning then
    match cut thinkEndToken t with
    | none => parsed (splitInnerReasoning t)
    | some (b, r) => (parsed (splitInnerReasoning b)).append (parsed (blockLoop r))
  else parsed (blockLoop t)

theorem join_filter (blocks : List (Kind × List Char)) :
    join k (blocks.filter fun b => ¬ (b.1 = .text ∧ b.2 = [])) = join k blocks := by
  induction blocks with
  | nil => rfl
  | cons b blocks ih =>
    obtain ⟨kind, content⟩ := b
    rw [filter_cons, show (kind, content) :: blocks = [(kind, content)] ++ blocks from rfl,
      join_append, ← ih]
    split
    · exact join_append k [(kind, content)] _
    · next hempty =>
      simp only [decide_not, Bool.not_eq_eq_eq_not, Bool.not_true, decide_eq_false_iff_not,
        not_not] at hempty
      obtain ⟨rfl, rfl⟩ := hempty
      cases k <;> rfl

theorem parsed_trimmed (blocks : List (Kind × List Char)) :
    parsed (blocks.dropLast.filter (fun b => ¬ (b.1 = .text ∧ b.2 = [])) ++
      blocks.getLast?.toList) = parsed blocks := by
  have hjoin : ∀ k, join k (blocks.dropLast.filter (fun b => ¬ (b.1 = .text ∧ b.2 = [])) ++
      blocks.getLast?.toList) = join k blocks := by
    intro k
    rw [join_append, join_filter, ← join_append]
    cases hlast : blocks.getLast? with
    | none => rw [getLast?_eq_none_iff.mp hlast]; rfl
    | some b => rw [toList_some, dropLast_append_getLast? b hlast]
  simp only [parsed, hjoin]

theorem detect_eq_parsedFrom (inReasoning : Bool) (t : List Char) :
    detectAndParse false inReasoning t = parsedFrom inReasoning t := by
  have hparsed : detectAndParse false inReasoning t =
      parsed (detectAndParseBlockSequence inReasoning t) := by
    simp [detectAndParse, parsed]
  rw [hparsed]
  unfold detectAndParseBlockSequence parsedFrom
  cases inReasoning with
  | false => exact parsed_trimmed (blockLoop t)
  | true =>
    cases hend : cut thinkEndToken t with
    | none =>
      simp only [if_true, find_of_cut_none hend, parsed_append, parsed_text]
      simp [ParseResult.append]
    | some p =>
      obtain ⟨hfind, htake, _, _, hdrop⟩ := find_of_cut hend
      simp only [if_true, hfind, htake, hdrop]
      rw [parsed_trimmed, parsed_append]

end Sglang.Parser.Apertus
