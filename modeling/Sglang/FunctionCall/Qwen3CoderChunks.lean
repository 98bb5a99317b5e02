import Sglang.FunctionCall.Qwen3CoderStreaming
import Sglang.Lib.JsonDumps

/-!
# Chunks of Qwen3 Coder

A call that raises loses what it collected and does not slice its buffer, so after an exception the
cut into chunks shows. Where `json.dumps` takes the values of all parameters of the text, it does
not.

- `Reads`: the parameters of a text,
- `raised_iff`: the cursor raises at the first parameter that cannot be dumped,
- `IndependentOfChunks`: the chunks do not matter,
- `stream_independent_iff`: when they do not.
-/

namespace Sglang.FunctionCall.Qwen3Coder

open List Option
open Lib

/-! ## Section 1: Parameters of a text -/

/-- A parameter of a text, with the function it belongs to. -/
structure Parameter where
  funcName : Option (List Char)
  name : List Char
  value : List Char

/-- `json.dumps` takes the value of the parameter. -/
def Parameter.Dumps {V : Type} (lib : PyLib V) (tools : Option (List Tool)) (p : Parameter) :
    Prop :=
  ∃ value, convertParamValue lib (cleanup p.value) p.name (getArgumentsConfig p.funcName tools) =
    some value ∧ (lib.dumps value).isSome

/-- A value ends before the first `</parameter>`, `<parameter=` or `</function>`. -/
def Ends (value rest : List Char) : Prop :=
  (∃ e ∈ valueEnds, e.1 <+: rest) ∧
    ∀ a b, value = a ++ b → b ≠ [] → ∀ e ∈ valueEnds, ¬ e.1 <+: b ++ rest

/-- The end tag of a parameter belongs to it, another end of its value does not. -/
def endLen (rest : List Char) : Nat :=
  if parameterEndToken <+: rest then parameterEndToken.length else 0

def functionTags : List (List Char) := [toolCallPrefix, parameterPrefix, functionEndToken]

/-- The parameters of a text that comes after the start of the function `funcName`, from left to
right: a name goes on to the next `>`, a value to its end, and no tag counts in it. -/
inductive Reads : Option (List Char) → List Char → Parameter → Prop
  | skip {funcName c s p} (hno : ∀ q ∈ functionTags, ¬ q <+: c :: s) (h : Reads funcName s p) :
      Reads funcName (c :: s) p
  | function {funcName name s p} (hname : '>' ∉ name) (h : Reads (some name) s p) :
      Reads funcName (toolCallPrefix ++ (name ++ '>' :: s)) p
  | functionEnd {funcName s p} (h : Reads none s p) : Reads funcName (functionEndToken ++ s) p
  | later {funcName name value s p} (hname : '>' ∉ name) (hends : Ends value s)
      (h : Reads funcName (s.drop (endLen s)) p) :
      Reads funcName (parameterPrefix ++ (name ++ '>' :: (value ++ s))) p
  | here {funcName name value s} (hname : '>' ∉ name) (hends : Ends value s) :
      Reads funcName (parameterPrefix ++ (name ++ '>' :: (value ++ s))) ⟨funcName, name, value⟩

/-! ## Section 2: Ends of values -/

theorem find_of_isPrefix {p : List Char} : ∀ {s : List Char} {j : Nat}, j ≤ s.length →
    p <+: s.drop j → ∃ i ≤ j, find p s = some i := by
  intro s
  induction s with
  | nil =>
    intro j _ hpre
    rw [drop_nil, prefix_nil] at hpre
    exact ⟨0, Nat.zero_le j, by simp [find, hpre]⟩
  | cons c s ih =>
    intro j hj hpre
    by_cases hnow : p <+: c :: s
    · exact ⟨0, Nat.zero_le j, by simp [find, hnow]⟩
    · cases j with
      | zero => exact absurd hpre hnow
      | succ j =>
        obtain ⟨i, hi, hfind⟩ := ih (Nat.le_of_succ_le_succ hj) hpre
        exact ⟨i + 1, Nat.succ_le_succ hi, by simp [find, hnow, hfind]⟩

theorem find_of_append {p a b : List Char} {i : Nat} (h : find p (a ++ b) = some i)
    (hle : i + p.length ≤ a.length) : find p a = some i := by
  have hpre := find_isPrefix h
  rw [drop_append_of_le_length (by omega)] at hpre
  have hin : p <+: a.drop i := prefix_of_prefix_length_le hpre (prefix_append _ b)
    (by rw [length_drop]; omega)
  obtain ⟨j, _, hj⟩ := find_of_isPrefix (by omega) hin
  rw [find_append hj, Option.some.injEq] at h
  rw [hj, h]

theorem bestCand_of_ends {value s : List Char} (h : Ends value s) :
    bestCand (value ++ s) = some (value.length, endLen s) := by
  obtain ⟨⟨e, he, hpre⟩, hfirst⟩ := h
  have hlen : endLen s = e.2 := by
    unfold endLen
    split
    · next hend =>
      have hsame := prefix_or_prefix_of_prefix hend hpre
      have heq : (parameterEndToken, parameterEndToken.length) = e := by
        rcases hsame with hsame | hsame
        · exact valueEnds_apart _ (mem_cons_self ..) e he hsame.isInfix
        · exact (valueEnds_apart e he _ (mem_cons_self ..) hsame.isInfix).symm
      rw [← heq]
    · next hno =>
      simp only [valueEnds, mem_cons, not_mem_nil, or_false] at he
      rcases he with rfl | rfl | rfl
      · exact absurd hpre hno
      · rfl
      · rfl
  -- no end is in front of it
  have hlater : ∀ e' ∈ valueEnds, ∀ j, find e'.1 (value ++ s) = some j → value.length ≤ j := by
    intro e' he' j hj
    by_contra hlt
    have hin := find_isPrefix hj
    rw [drop_append_of_le_length (by omega)] at hin
    refine hfirst (value.take j) (value.drop j) (take_append_drop ..).symm ?_ e' he' hin
    rw [Ne, drop_eq_nil_iff]
    omega
  have hfind : find e.1 (value ++ s) = some value.length := by
    obtain ⟨i, hi, hfind⟩ := find_of_isPrefix (p := e.1) (s := value ++ s) (j := value.length)
      (by simp) (by rwa [drop_left])
    rw [hfind, Option.some.injEq]
    exact Nat.le_antisymm hi (hlater e he i hfind)
  rw [bestCand_eq, hlen]
  apply minByPosition_of_first
  · exact mem_candidates.mpr ⟨e, he, hfind, rfl⟩
  · intro c hc hne
    obtain ⟨e', he', hi', hlen'⟩ := mem_candidates.mp hc
    refine Nat.lt_of_le_of_ne (hlater e' he' c.1 hi') fun heq => hne ?_
    have hsame := valueEnds_unique he he' hfind (hi'.trans (congrArg some heq.symm))
    exact Prod.ext heq.symm (by rw [hlen', hsame])

theorem ends_of_bestCand {s : List Char} {endPos endTokenLen : Nat}
    (h : bestCand s = some (endPos, endTokenLen)) : Ends (s.take endPos) (s.drop endPos) := by
  rw [bestCand_eq] at h
  obtain ⟨e, he, hi, _⟩ := mem_candidates.mp (minByPosition_mem h)
  refine ⟨⟨e, he, find_isPrefix hi⟩, ?_⟩
  intro a b hab hb e' he' hpre
  have hlen := congrArg List.length hab
  have hpos := length_pos_of_ne_nil hb
  have hle : endPos ≤ s.length := by
    have := find_add_length_le hi
    omega
  rw [length_take, Nat.min_eq_left hle, length_append] at hlen
  have hs : s = a ++ (b ++ s.drop endPos) := by
    rw [← append_assoc, ← hab, take_append_drop]
  have hin : e'.1 <+: s.drop a.length := by
    rw [hs, drop_left]
    exact hpre
  obtain ⟨j, hj, hfind⟩ := find_of_isPrefix (by omega) hin
  have := minByPosition_le h (j, e'.2) (mem_candidates.mpr ⟨e', he', hfind, rfl⟩)
  dsimp only at this
  omega

/-! ## Section 3: What is read at a place -/

section Reading

variable {funcName : Option (List Char)} {s : List Char} {p : Parameter}

theorem functionTags_apart : ∀ q ∈ functionTags, ∀ q' ∈ functionTags, q <+: q' → q = q' := by decide

theorem functionTags_taken : ∀ q ∈ functionTags, q ∈ takenTags := by decide

theorem functionTags_unique {q q' : List Char} (hq : q ∈ functionTags) (hq' : q' ∈ functionTags)
    (h : q <+: s) (h' : q' <+: s) : q = q' := by
  rcases prefix_or_prefix_of_prefix h h' with hpre | hpre
  · exact functionTags_apart q hq q' hq' hpre
  · exact (functionTags_apart q' hq' q hq hpre).symm

theorem Reads.tag (h : Reads funcName s p) : parameterPrefix <:+: s ∧ '>' ∈ s := by
  induction h with
  | skip _ _ ih => exact ⟨infix_cons ih.1, mem_cons_of_mem _ ih.2⟩
  | @function _ name s _ _ _ ih =>
    have hsuffix : s <:+ toolCallPrefix ++ (name ++ '>' :: s) :=
      ⟨toolCallPrefix ++ (name ++ ['>']), by simp⟩
    exact ⟨ih.1.trans hsuffix.isInfix, by simp⟩
  | @functionEnd _ s _ _ ih =>
    have hsuffix := suffix_append functionEndToken s
    exact ⟨ih.1.trans hsuffix.isInfix, hsuffix.subset ih.2⟩
  | later _ _ _ _ => exact ⟨(prefix_append ..).isInfix, by simp⟩
  | here _ _ => exact ⟨(prefix_append ..).isInfix, by simp⟩

theorem reads_cons {c : Char} (hno : ∀ q ∈ functionTags, ¬ q <+: c :: s) :
    Reads funcName (c :: s) p ↔ Reads funcName s p := by
  refine ⟨fun h => ?_, fun h => .skip hno h⟩
  generalize ht : c :: s = t at h
  have hno' : ∀ q ∈ functionTags, ¬ q <+: t := ht ▸ hno
  cases h with
  | skip _ h =>
    cases ht
    exact h
  | function _ _ => exact absurd (prefix_append ..) (hno' _ (by decide))
  | functionEnd _ => exact absurd (prefix_append ..) (hno' _ (by decide))
  | later _ _ _ => exact absurd (prefix_append ..) (hno' _ (by decide))
  | here _ _ => exact absurd (prefix_append ..) (hno' _ (by decide))

theorem reads_append {x : List Char}
    (hno : ∀ a b, x = a ++ b → b ≠ [] → ∀ q ∈ functionTags, ¬ q <+: b ++ s) :
    Reads funcName (x ++ s) p ↔ Reads funcName s p := by
  induction x with
  | nil => rfl
  | cons c x ih =>
    have hhead : ∀ q ∈ functionTags, ¬ q <+: c :: (x ++ s) := hno [] (c :: x) rfl (by simp)
    rw [cons_append, reads_cons hhead]
    apply ih
    intro a b hx
    exact hno (c :: a) b (by rw [hx]; rfl)

theorem reads_text {c : Char} {x : List Char} (hno : ∀ q ∈ functionTags, ¬ q <+: c :: (x ++ s))
    (hx : '<' ∉ x) : Reads funcName (c :: (x ++ s)) p ↔ Reads funcName s p := by
  rw [reads_cons hno]
  apply reads_append
  intro a b hab hb q hq
  obtain ⟨d, b, rfl⟩ := exists_cons_of_ne_nil hb
  have hd : d ≠ '<' := by
    rintro rfl
    exact hx (by simp [hab])
  exact not_tag_of_head hd q (functionTags_taken q hq)

theorem append_angle_inj {a b t : List Char} (ha : '>' ∉ a) (hb : '>' ∉ b)
    (h : a ++ '>' :: s = b ++ '>' :: t) : a = b ∧ s = t := by
  have hsame : a = b := by
    have htake : ∀ {x y : List Char}, '>' ∉ x → (x ++ '>' :: y).takeWhile (· ≠ '>') = x := by
      intro x y hx
      rw [takeWhile_append_of_pos fun c hc => by simpa using ne_of_mem_of_not_mem hc hx]
      simp
    rw [← htake ha, h, htake hb]
  subst hsame
  exact ⟨rfl, (List.cons.inj (append_cancel_left h)).2⟩

theorem reads_function {name : List Char} (hname : '>' ∉ name) :
    Reads funcName (toolCallPrefix ++ (name ++ '>' :: s)) p ↔ Reads (some name) s p := by
  refine ⟨fun h => ?_, fun h => .function hname h⟩
  generalize ht : toolCallPrefix ++ (name ++ '>' :: s) = t at h
  have hpre : toolCallPrefix <+: t := ⟨_, ht⟩
  have honly : ∀ q ∈ functionTags, q <+: t → q = toolCallPrefix :=
    fun q hq h => functionTags_unique hq (by decide) h hpre
  cases h with
  | skip hno _ => exact absurd hpre (hno _ (by decide))
  | function hname' h =>
    obtain ⟨rfl, rfl⟩ := append_angle_inj hname hname' (append_cancel_left ht)
    exact h
  | functionEnd _ => exact absurd (honly _ (by decide) (prefix_append ..)) (by decide)
  | later _ _ _ => exact absurd (honly _ (by decide) (prefix_append ..)) (by decide)
  | here _ _ => exact absurd (honly _ (by decide) (prefix_append ..)) (by decide)

theorem reads_functionEnd : Reads funcName (functionEndToken ++ s) p ↔ Reads none s p := by
  refine ⟨fun h => ?_, fun h => .functionEnd h⟩
  generalize ht : functionEndToken ++ s = t at h
  have hpre : functionEndToken <+: t := ⟨_, ht⟩
  have honly : ∀ q ∈ functionTags, q <+: t → q = functionEndToken :=
    fun q hq h => functionTags_unique hq (by decide) h hpre
  cases h with
  | skip hno _ => exact absurd hpre (hno _ (by decide))
  | function _ _ => exact absurd (honly _ (by decide) (prefix_append ..)) (by decide)
  | functionEnd h =>
    cases append_cancel_left ht
    exact h
  | later _ _ _ => exact absurd (honly _ (by decide) (prefix_append ..)) (by decide)
  | here _ _ => exact absurd (honly _ (by decide) (prefix_append ..)) (by decide)

theorem Reads.parameter {name rest : List Char} (hname : '>' ∉ name)
    (h : Reads funcName (parameterPrefix ++ (name ++ '>' :: rest)) p) :
    ∃ value s, rest = value ++ s ∧ Ends value s ∧
      (p = ⟨funcName, name, value⟩ ∨ Reads funcName (s.drop (endLen s)) p) := by
  generalize ht : parameterPrefix ++ (name ++ '>' :: rest) = t at h
  have hpre : parameterPrefix <+: t := ⟨_, ht⟩
  have honly : ∀ q ∈ functionTags, q <+: t → q = parameterPrefix :=
    fun q hq h => functionTags_unique hq (by decide) h hpre
  cases h with
  | skip hno _ => exact absurd hpre (hno _ (by decide))
  | function _ _ => exact absurd (honly _ (by decide) (prefix_append ..)) (by decide)
  | functionEnd _ => exact absurd (honly _ (by decide) (prefix_append ..)) (by decide)
  | later hname' hends h =>
    obtain ⟨rfl, rfl⟩ := append_angle_inj hname hname' (append_cancel_left ht)
    exact ⟨_, _, rfl, hends, .inr h⟩
  | here hname' hends =>
    obtain ⟨rfl, rfl⟩ := append_angle_inj hname hname' (append_cancel_left ht)
    exact ⟨_, _, rfl, hends, .inl rfl⟩

theorem reads_parameter {name value : List Char} (hname : '>' ∉ name) (hends : Ends value s) :
    Reads funcName (parameterPrefix ++ (name ++ '>' :: (value ++ s))) p ↔
      p = ⟨funcName, name, value⟩ ∨ Reads funcName (s.drop (endLen s)) p := by
  constructor
  · intro h
    obtain ⟨value', s', hrest, hends', hp⟩ := h.parameter hname
    -- the value is unique
    have hbest := bestCand_of_ends hends
    rw [hrest, bestCand_of_ends hends', Option.some.injEq, Prod.mk.injEq] at hbest
    obtain ⟨rfl, rfl⟩ := append_inj hrest hbest.1.symm
    exact hp
  · rintro (rfl | h)
    · exact .here hname hends
    · exact .later hname hends h

end Reading

/-! ## Section 4: Where the cursor raises -/

theorem find_char {c : Char} : ∀ {s : List Char} {i : Nat}, find [c] s = some i →
    c ∉ s.take i ∧ s = s.take i ++ c :: s.drop (i + 1) := by
  intro s
  induction s with
  | nil =>
    intro i h
    cases h
  | cons d s ih =>
    intro i h
    by_cases hd : [c] <+: d :: s
    · obtain rfl : c = d := by simpa using hd
      obtain rfl : 0 = i := by simpa [find] using h
      simp
    · simp only [find, if_neg hd, map_eq_some_iff] at h
      obtain ⟨j, hj, rfl⟩ := h
      obtain ⟨hno, heq⟩ := ih hj
      have hne : c ≠ d := fun hcd => hd (by simp [hcd])
      refine ⟨by simpa [hne] using hno, ?_⟩
      rw [take_succ_cons, drop_succ_cons, cons_append, ← heq]

theorem find_char_none {c : Char} {s : List Char} (h : find [c] s = none) : c ∉ s := by
  rw [find_eq_cut, map_eq_none_iff, cut_eq_none_iff, singleton_infix_iff] at h
  exact h

theorem split_name {q s : List Char} {i : Nat} (hq : '>' ∉ q) (hpre : q <+: s)
    (h : find ">".toList s = some i) : '>' ∉ (s.take i).drop q.length ∧
      s = q ++ ((s.take i).drop q.length ++ '>' :: s.drop (i + 1)) := by
  obtain ⟨hno, heq⟩ := find_char (c := '>') h
  have hin : q <+: s.take i := by
    rw [heq] at hpre
    rcases prefix_or_prefix_of_prefix hpre (prefix_append (s.take i) _) with hin | ⟨r, hr⟩
    · exact hin
    · -- the tag does not reach the `>`
      cases r with
      | nil =>
        rw [append_nil] at hr
        rw [hr]
      | cons d r =>
        rw [← hr, prefix_append_right_inj, cons_prefix_cons] at hpre
        exact absurd (by rw [← hr, hpre.1]; simp) hq
  obtain ⟨name, hname⟩ := hin
  refine ⟨fun hmem => hno (mem_of_mem_drop hmem), ?_⟩
  rw [← hname, drop_left, ← append_assoc, hname]
  exact heq

section Raising

variable {V : Type} {lib : PyLib V} {tools : Option (List Tool)} {st next : State}
  {s : List Char} {out : StreamingParseResult} {n : Nat}

/-- The text holds a parameter that cannot be dumped. -/
def Undumped (lib : PyLib V) (tools : Option (List Tool)) (funcName : Option (List Char))
    (s : List Char) : Prop :=
  ∃ p, Reads funcName s p ∧ ¬ p.Dumps lib tools

theorem Undumped.congr {funcName funcName' : Option (List Char)} {s' : List Char}
    (h : ∀ p, Reads funcName s p ↔ Reads funcName' s' p) :
    Undumped lib tools funcName s ↔ Undumped lib tools funcName' s' := by
  simp only [Undumped, h]

theorem fragment_eq_none {name value : List Char} : fragment lib tools st name value = none ↔
    ¬ Parameter.Dumps lib tools ⟨st.currentFuncName, name, value⟩ := by
  unfold fragment Parameter.Dumps
  cases convertParamValue lib (cleanup value) name
    (getArgumentsConfig st.currentFuncName tools) with
  | none => simp
  | some v => cases hv : lib.dumps v <;> simp [hv]

/-- What is read at a parameter, of which the cursor has seen the end. -/
theorem undumped_parameter {i endPos endTokenLen : Nat} (hpre : parameterPrefix <+: s)
    (hfind : find ">".toList s = some i)
    (hbest : bestCand (s.drop (i + 1)) = some (endPos, endTokenLen)) :
    Undumped lib tools st.currentFuncName s ↔
      fragment lib tools st ((s.take i).drop parameterPrefix.length)
          ((s.drop (i + 1)).take endPos) = none ∨
        Undumped lib tools st.currentFuncName (s.drop (i + 1 + endPos + endTokenLen)) := by
  obtain ⟨hname, heq⟩ := split_name (by decide) hpre hfind
  set name := (s.take i).drop parameterPrefix.length
  have hends := ends_of_bestCand hbest
  have hlen := bestCand_of_ends hends
  rw [take_append_drop, hbest, Option.some.injEq, Prod.mk.injEq] at hlen
  have hrest : s.drop (i + 1 + endPos + endTokenLen) = ((s.drop (i + 1)).drop endPos).drop
      (endLen ((s.drop (i + 1)).drop endPos)) := by
    rw [← hlen.2, drop_drop, drop_drop, Nat.add_assoc (i + 1)]
  have hreads : ∀ p, Reads st.currentFuncName s p ↔
      p = ⟨st.currentFuncName, name, (s.drop (i + 1)).take endPos⟩ ∨
        Reads st.currentFuncName (s.drop (i + 1 + endPos + endTokenLen)) p := by
    intro p
    rw [hrest, ← reads_parameter hname hends, take_append_drop, ← heq]
  rw [fragment_eq_none]
  simp only [Undumped, hreads]
  constructor
  · rintro ⟨p, rfl | hp, hbad⟩
    · exact .inl hbad
    · exact .inr ⟨p, hp, hbad⟩
  · rintro (hbad | ⟨p, hp, hbad⟩)
    · exact ⟨_, .inl rfl, hbad⟩
    · exact ⟨p, .inr hp, hbad⟩

theorem undumped_of_go (h : step lib tools st s = .go out next n) :
    Undumped lib tools st.currentFuncName s ↔
      Undumped lib tools next.currentFuncName (s.drop n) := by
  have hmoves : step lib tools st s ≠ .wait := by simp [h]
  have hne := ne_nil_of_step hmoves
  -- the token the parser takes is a tag, or text up to the next angle bracket
  by_cases htag : ∃ q ∈ takenTags, q <+: s
  · obtain ⟨q, hq, hpre⟩ := htag
    have hother : ∀ q' ∈ functionTags, q' ≠ q → ¬ q' <+: s :=
      fun q' hq' => takenTags_unique hq (functionTags_taken q' hq') hpre
    simp only [takenTags, mem_cons, not_mem_nil, or_false] at hq
    rcases hq with rfl | rfl | rfl | rfl | rfl
    · -- `<tool_call>`
      rw [step_toolCallStart hpre] at h
      cases h
      obtain ⟨t, rfl⟩ := hpre
      rw [drop_left]
      refine Undumped.congr fun p => ?_
      exact reads_text (x := "tool_call>".toList)
        (fun q' hq' => hother q' hq' (by rintro rfl; revert hq'; decide)) (by decide)
    · -- `<function=`
      rw [step_function hpre, functionStep] at h
      cases hfind : find ">".toList s with
      | none =>
        rw [hfind] at h
        cases h
      | some i =>
        simp only [hfind] at h
        cases h
        obtain ⟨hname, heq⟩ := split_name (by decide) hpre hfind
        refine Undumped.congr fun p => ?_
        conv_lhs => rw [heq]
        exact reads_function hname
    · -- `<parameter=`
      rw [step_parameter hpre, parameterStep] at h
      cases hfind : find ">".toList s with
      | none =>
        rw [hfind] at h
        cases h
      | some i =>
        simp only [hfind] at h
        cases hbest : bestCand (s.drop (i + 1)) with
        | none => simp [hbest] at h
        | some best =>
          obtain ⟨endPos, endTokenLen⟩ := best
          simp only [hbest] at h
          rw [undumped_parameter hpre hfind hbest]
          split at h
          · cases h
          · next fragment hsome =>
            cases h
            simp [hsome]
    · -- `</function>`
      rw [step_functionEnd hpre] at h
      cases h
      obtain ⟨t, rfl⟩ := hpre
      rw [drop_left]
      exact Undumped.congr fun p => reads_functionEnd
    · -- `</tool_call>`
      rw [step_toolCallEnd hpre] at h
      cases h
      obtain ⟨t, rfl⟩ := hpre
      rw [drop_left]
      refine Undumped.congr fun p => ?_
      exact reads_text (x := "/tool_call>".toList)
        (fun q' hq' => hother q' hq' (by rintro rfl; revert hq'; decide)) (by decide)
  · -- no tag is taken: `textStep` moves past text that carries none
    have hnot : ∀ q ∈ takenTags, ¬ q <+: s := fun q hq hpre => htag ⟨q, hq, hpre⟩
    have hno : ∀ q ∈ functionTags, ¬ q <+: s := fun q hq => hnot q (functionTags_taken q hq)
    rw [step_other hne hnot, textStep] at h
    refine Undumped.congr fun p => ?_
    obtain ⟨c, t, rfl⟩ := exists_cons_of_ne_nil hne
    cases hfind : find "<".toList (c :: t) with
    | none =>
      simp only [hfind] at h
      cases h
      have hangle := find_char_none (c := '<') hfind
      rw [drop_length]
      have hskip := @reads_text st.currentFuncName [] p c t (by simpa using hno)
        (fun hmem => hangle (mem_cons_of_mem _ hmem))
      rwa [append_nil] at hskip
    | some i =>
      simp only [hfind] at h
      cases i with
      | zero =>
        dsimp only at h
        split at h
        · cases h
        · cases h
          exact reads_cons hno
      | succ k =>
        cases h
        obtain ⟨hangle, heq⟩ := find_char (c := '<') hfind
        rw [take_succ_cons] at hangle
        have hskip := @reads_text st.currentFuncName (t.drop k) p c (t.take k)
          (by rwa [take_append_drop]) (fun hmem => hangle (mem_cons_of_mem _ hmem))
        rwa [take_append_drop] at hskip

theorem not_undumped_of_wait (h : step lib tools st s = .wait) :
    ¬ Undumped lib tools st.currentFuncName s := by
  rintro ⟨p, hp, _⟩
  obtain ⟨hin, hangle⟩ := hp.tag
  have hne : s ≠ [] := ne_nil_of_mem hangle
  by_cases htag : ∃ q ∈ takenTags, q <+: s
  · obtain ⟨q, hq, hpre⟩ := htag
    simp only [takenTags, mem_cons, not_mem_nil, or_false] at hq
    rcases hq with rfl | rfl | rfl | rfl | rfl
    · simp [step_toolCallStart hpre] at h
    · rw [step_function hpre, functionStep] at h
      cases hfind : find ">".toList s with
      | none => exact find_char_none hfind hangle
      | some i =>
        rw [hfind] at h
        cases h
    · rw [step_parameter hpre, parameterStep] at h
      cases hfind : find ">".toList s with
      | none => exact find_char_none hfind hangle
      | some i =>
        simp only [hfind] at h
        cases hbest : bestCand (s.drop (i + 1)) with
        | none =>
          obtain ⟨hname, heq⟩ := split_name (by decide) hpre hfind
          rw [heq] at hp
          obtain ⟨value, t, hrest, hends, _⟩ := hp.parameter hname
          rw [hrest, bestCand_of_ends hends] at hbest
          cases hbest
        | some best =>
          simp only [hbest] at h
          split at h <;> cases h
    · simp [step_functionEnd hpre] at h
    · simp [step_toolCallEnd hpre] at h
  · have hnot : ∀ q ∈ takenTags, ¬ q <+: s := fun q hq hpre => htag ⟨q, hq, hpre⟩
    rw [step_other hne hnot, textStep] at h
    split at h
    · cases h
    · split at h
      · next hany =>
        -- a part of a tag holds no parameter
        obtain ⟨q, hq, hpre⟩ := any_eq_true.mp hany
        have hpre : s <+: q := by simpa using hpre
        have hfree : ∀ q ∈ possibleTags, parameterPrefix <:+: q → '>' ∉ q := by decide
        exact hfree q hq (hin.trans hpre.isInfix) (hpre.subset hangle)
      · cases h
    · cases h

/-- The cursor raises if and only if the text holds a parameter that cannot be dumped. -/
theorem raised_iff (st : State) (s : List Char) :
    ((cursor lib tools).loop st s).raised = true ↔ Undumped lib tools st.currentFuncName s := by
  induction st, s using (cursor lib tools).loop_induction with
  | wait st s h =>
    rw [Cursor.loop_wait h]
    simpa using not_undumped_of_wait h
  | fail st s next h =>
    rw [Cursor.loop_fail h]
    change step lib tools st s = .fail next at h
    obtain ⟨hpre, _⟩ := step_fail h
    rw [step_parameter hpre, parameterStep] at h
    split at h
    · cases h
    next i hfind =>
    dsimp only at h
    split at h
    · cases h
    next endPos endTokenLen hbest =>
    split at h
    · next hnone => simp [undumped_parameter hpre hfind hbest, hnone]
    · cases h
  | go st s out next n h ih =>
    rw [Cursor.loop_go h, Stop.prepend_raised, ih]
    exact (undumped_of_go h).symm

/-! ## Section 5: Streams -/

/-- `json.dumps` takes strings and `None`. -/
structure DumpsPlain (lib : PyLib V) : Prop where
  dumps_str : ∀ s, (lib.dumps (lib.str s)).isSome
  dumps_none : (lib.dumps lib.none).isSome

theorem dumps_of_no_function (h : DumpsPlain lib) (name value : List Char) :
    Parameter.Dumps lib tools ⟨none, name, value⟩ := by
  have hconfig : getArgumentsConfig none tools = .obj [] := by
    cases tools with
    | none => rfl
    | some tools =>
      have hnone : tools.find? (fun _ => false) = none := find?_eq_none.mpr (by simp)
      simp [getArgumentsConfig, hnone]
  unfold Parameter.Dumps
  rw [hconfig, convertParamValue]
  split
  · exact ⟨_, rfl, h.dumps_none⟩
  · exact ⟨_, rfl, h.dumps_str _⟩

theorem rest_of_raised (st : State) (s : List Char) :
    ((cursor lib tools).loop st s).raised = true →
      step lib tools ((cursor lib tools).loop st s).next ((cursor lib tools).loop st s).rest =
          .fail ((cursor lib tools).loop st s).next ∧
        parameterPrefix <+: ((cursor lib tools).loop st s).rest := by
  induction st, s using (cursor lib tools).loop_induction with
  | wait st s h =>
    rw [Cursor.loop_wait h]
    intro hraised
    cases hraised
  | fail st s next h =>
    rw [Cursor.loop_fail h]
    exact fun _ => ⟨(step_fail h).2, (step_fail h).1⟩
  | go st s out next n h ih =>
    rw [Cursor.loop_go h]
    exact ih

/-- A step that ends before a parameter needs no more than the tag of this parameter. -/
theorem step_of_parameter {w z : List Char}
    (h : step lib tools st (w ++ (parameterPrefix ++ z)) = .go out next n) (hn : n ≤ w.length) :
    step lib tools st (w ++ parameterPrefix) ≠ .wait := by
  intro hwait
  rw [← append_assoc] at h
  have hw : w ≠ [] := by
    rintro rfl
    have := (step_advance lib tools h).1
    have : n ≤ 0 := hn
    omega
  have hlen : (w ++ parameterPrefix).length = w.length + 11 := length_append
  by_cases htag : ∃ q ∈ takenTags, q <+: w ++ parameterPrefix
  · obtain ⟨q, hq, hpre⟩ := htag
    have hpre' := prefix_append_right hpre z
    simp only [takenTags, mem_cons, not_mem_nil, or_false] at hq
    rcases hq with rfl | rfl | rfl | rfl | rfl
    · simp [step_toolCallStart hpre] at hwait
    · rw [step_function hpre', functionStep] at h
      rw [step_function hpre, functionStep] at hwait
      cases hfind : find ">".toList (w ++ parameterPrefix ++ z) with
      | none =>
        rw [hfind] at h
        cases h
      | some i =>
        rw [hfind] at h
        cases h
        rw [find_of_append hfind (show i + 1 ≤ _ by omega)] at hwait
        cases hwait
    · rw [step_parameter hpre', parameterStep] at h
      rw [step_parameter hpre, parameterStep] at hwait
      cases hfind : find ">".toList (w ++ parameterPrefix ++ z) with
      | none =>
        rw [hfind] at h
        cases h
      | some i =>
        simp only [hfind] at h
        split at h
        · cases h
        split at h
        · cases h
        cases h
        -- the value ends at the tag, if not before
        rw [find_of_append hfind (show i + 1 ≤ _ by omega)] at hwait
        dsimp only at hwait
        have hbest : bestCand ((w ++ parameterPrefix).drop (i + 1)) ≠ none := by
          rw [drop_append_of_le_length (by omega), bestCand_eq]
          apply minByPosition_ne_none
          obtain ⟨j, _, hj⟩ := find_of_isPrefix (p := parameterPrefix)
            (s := w.drop (i + 1) ++ parameterPrefix) (j := (w.drop (i + 1)).length) (by simp)
            (by rw [drop_left])
          exact ne_nil_of_mem
            (mem_candidates.mpr ⟨(parameterPrefix, 0), by simp [valueEnds], hj, rfl⟩ :
            (j, 0) ∈ candidates _)
        split at hwait
        · next hnone => exact hbest hnone
        · split at hwait <;> cases hwait
    · simp [step_functionEnd hpre] at hwait
    · simp [step_toolCallEnd hpre] at hwait
  · have hnot : ∀ q ∈ takenTags, ¬ q <+: w ++ parameterPrefix :=
      fun q hq hpre => htag ⟨q, hq, hpre⟩
    rw [step_other (by simp [hw]) hnot, textStep] at hwait
    split at hwait
    · cases hwait
    · split at hwait
      · next hany =>
        -- the tag of a parameter is no proper part of another tag
        obtain ⟨q, hq, hpre⟩ := any_eq_true.mp hany
        have hpre : w ++ parameterPrefix <+: q := by simpa using hpre
        have honly : ∀ q ∈ possibleTags, parameterPrefix <:+: q → q = parameterPrefix := by decide
        have := honly q hq ((suffix_append w _).isInfix.trans hpre.isInfix)
        have hle := hpre.length_le
        rw [this, hlen] at hle
        have : 0 < w.length := length_pos_of_ne_nil hw
        have : parameterPrefix.length = 11 := rfl
        omega
      · cases hwait
    · cases hwait

theorem parseStreamingIncrement_of_raised {buffer newText : List Char}
    (h : ((cursor lib tools).loop st (buffer ++ newText)).raised = true) :
    (parseStreamingIncrement lib tools ⟨st, buffer, 0⟩ newText).1 = none ∧
      (parseStreamingIncrement lib tools ⟨st, buffer, 0⟩ newText).2.buffer = buffer ++ newText := by
  have hne : buffer ++ newText ≠ [] := by
    intro hnil
    rw [hnil, loop_nil] at h
    cases h
  simp only [parseStreamingIncrement, if_neg hne, drop_zero, h, if_true, and_self]

theorem rest_of_fresh (hplain : DumpsPlain lib) {text : List Char}
    (h : ((cursor lib tools).loop State.new text).raised = true) : ∃ out next n,
    step lib tools State.new text = .go out next n ∧
      ((cursor lib tools).loop State.new text).rest <:+ text.drop n := by
  cases hstep : step lib tools State.new text with
  | wait =>
    rw [Cursor.loop_wait hstep] at h
    cases h
  | fail next =>
    -- no function is open, so the value is a string or `None`
    obtain ⟨hpre, _⟩ := step_fail hstep
    rw [step_parameter hpre, parameterStep] at hstep
    split at hstep
    · cases hstep
    dsimp only at hstep
    split at hstep
    · cases hstep
    split at hstep
    · next hnone => exact absurd (dumps_of_no_function hplain _ _) (fragment_eq_none.mp hnone)
    · cases hstep
  | go out next n =>
    refine ⟨out, next, n, rfl, ?_⟩
    rw [Cursor.loop_go hstep]
    exact (cursor lib tools).loop_rest next _

/-- Feeding the chunks to a fresh detector gives the same for every two ways to cut the text: the
same normal text, the same calls, the same detector, and an exception on both or on none. -/
def IndependentOfChunks (lib : PyLib V) (tools : Option (List Tool)) (text : List Char) : Prop :=
  ∀ chunks chunks' : List (List Char), chunks.flatten = text → chunks'.flatten = text →
    streamChunks lib tools Detector.new chunks = streamChunks lib tools Detector.new chunks'

/-- A cut behind the tag of the parameter that raises, and no cut at all: the buffers differ. -/
theorem dependent_of_raised (hplain : DumpsPlain lib) {text : List Char}
    (h : ((cursor lib tools).loop State.new text).raised = true) :
    ¬ IndependentOfChunks lib tools text := by
  intro hall
  obtain ⟨out, next, n, hstep, hrest⟩ := rest_of_fresh hplain h
  obtain ⟨z, hz⟩ := (rest_of_raised State.new text h).2
  obtain ⟨w, hw⟩ := hrest.trans (drop_suffix n text)
  rw [← hz] at hw
  have hn : n ≤ w.length := by
    have hle := hrest.length_le
    have hlen := congrArg List.length hw
    have hadv := (step_advance lib tools hstep).2
    rw [← hz, length_drop] at hle
    rw [length_append] at hlen
    omega
  subst hw
  -- the first chunk does not reach the exception, but is read in part
  have hfirst : ((cursor lib tools).loop State.new (w ++ parameterPrefix)).raised = false := by
    by_contra hraised
    have hraised := Bool.eq_true_of_not_eq_false hraised
    have hsame := (cursor_online.raised_append hraised z).2
    rw [append_assoc, ← hz] at hsame
    have hplace := (rest_of_raised State.new _ hraised).1
    rw [← append_cancel_right hsame, step_parameter prefix_rfl] at hplace
    have hnone : find ">".toList parameterPrefix = none := by decide
    rw [parameterStep, hnone] at hplace
    cases hplace
  have hmoved : ((cursor lib tools).loop State.new (w ++ parameterPrefix)).rest.length <
      (w ++ parameterPrefix).length := by
    cases hmove : step lib tools State.new (w ++ parameterPrefix) with
    | wait => exact absurd hmove (step_of_parameter hstep hn)
    | fail next' =>
      rw [Cursor.loop_fail hmove] at hfirst
      cases hfirst
    | go out' next' n' =>
      have hadv := step_advance lib tools hmove
      have hle := ((cursor lib tools).loop_rest next' ((w ++ parameterPrefix).drop n')).length_le
      rw [Cursor.loop_go hmove, Stop.prepend_rest]
      rw [length_drop] at hle
      omega
  have hsecond := h
  rw [← append_assoc, cursor_online.loop_append, Stop.prepend_raised] at hsecond
  have hcut := hall [w ++ parameterPrefix, z] [w ++ (parameterPrefix ++ z)] (by simp) (by simp)
  simp only [streamChunks, Detector.new] at hcut
  have hbuffer := congrArg (fun s => s.detector.buffer) hcut
  dsimp only at hbuffer
  rw [(parseStreamingIncrement_of_raised (by simpa using h)).2,
    parseStreamingIncrement_of_loop (by simpa using hfirst), nil_append, nil_append,
    (parseStreamingIncrement_of_raised hsecond).2, ← append_assoc] at hbuffer
  rw [append_cancel_right hbuffer] at hmoved
  exact Nat.lt_irrefl _ hmoved

/-- The chunks of a text do not matter if and only if `json.dumps` takes the values of all its
parameters. -/
theorem stream_independent_iff (lib : PyLib V) (tools : Option (List Tool))
    (hplain : DumpsPlain lib) (text : List Char) :
    IndependentOfChunks lib tools text ↔ ∀ p, Reads none text p → p.Dumps lib tools := by
  have hraised := @raised_iff V lib tools State.new text
  constructor
  · intro hall p hp
    by_contra hbad
    exact dependent_of_raised hplain (hraised.mpr ⟨p, hp, hbad⟩) hall
  · intro hdumps chunks chunks' h h'
    have hreturns : ((cursor lib tools).loop State.new text).raised = false := by
      rw [← Bool.not_eq_true, hraised]
      rintro ⟨p, hp, hbad⟩
      exact hbad (hdumps p hp)
    have hsettled := loop_nil lib tools State.new
    rw [Detector.new, stream_of_loop chunks hsettled (by rwa [nil_append, h]),
      stream_of_loop chunks' hsettled (by rwa [nil_append, h']), h, h']

end Raising

/-! ## Section 6: A value that cannot be dumped -/

/-- The values of Python that a parameter of type `object` needs here. -/
inductive SetValue where
  | none
  | str (s : List Char)
  | bool (b : Bool)
  /-- The set of 1 and 2 -/
  | set
deriving DecidableEq

def setLib : PyLib SetValue where
  none := .none
  str := .str
  bool := .bool
  lower s := s.map Char.toLower
  strip s := s
  showJson
    | .str codes => codes.map Char.ofNat
    | _ => []
  int _ := none
  float _ := none
  isInteger _ := false
  floatToInt v := v
  loads _ := none
  literalEval s := if s = "\x7b1,2\x7d".toList then some .set else none
  dumps
    | .none => some "null".toList
    | .str s => some (Json.dumpsString false s)
    | .bool b => some (if b then "true".toList else "false".toList)
    | .set => none
  dumpsAscii := Json.dumpsString true

theorem setLib_plain : DumpsPlain setLib := ⟨fun _ => rfl, rfl⟩

/-- The tool `f`, with one parameter `p` of type `object`. -/
def setTools : Option (List Tool) :=
  some [⟨"function".toList, "f".toList, .obj [(Json.codes "p".toList,
    .obj [(Json.codes "type".toList, .str (Json.codes "object".toList))])]⟩]

/-- The start of a call of `f`, after the text `ok`. -/
def setLead : List Char :=
  "ok".toList ++ (toolCallStartToken ++ (toolCallPrefix ++ ("f".toList ++ ['>'])))

/-- A parameter with the value `{1,2}`, and the end of the call. -/
def setRest (name : List Char) : List Char :=
  parameterPrefix ++ (name ++ '>' :: ("\x7b1,2\x7d".toList ++
    (parameterEndToken ++ (functionEndToken ++ toolCallEndToken))))

theorem ends_set : Ends "\x7b1,2\x7d".toList
    (parameterEndToken ++ (functionEndToken ++ toolCallEndToken)) := by
  have hbest : bestCand ("\x7b1,2\x7d".toList ++
      (parameterEndToken ++ (functionEndToken ++ toolCallEndToken))) = some (5, 12) := by decide
  exact ends_of_bestCand hbest

theorem reads_setRest {funcName : Option (List Char)} {name : List Char} {p : Parameter}
    (hname : '>' ∉ name) :
    Reads funcName (setRest name) p ↔ p = ⟨funcName, name, "\x7b1,2\x7d".toList⟩ := by
  have hend : (parameterEndToken ++ (functionEndToken ++ toolCallEndToken)).drop
      (endLen (parameterEndToken ++ (functionEndToken ++ toolCallEndToken))) =
        functionEndToken ++ toolCallEndToken := by decide
  have hnone : ¬ Reads none toolCallEndToken p := by
    intro h
    have hno : ¬ parameterPrefix <:+: toolCallEndToken := by decide
    exact hno h.tag.1
  rw [setRest, reads_parameter hname ends_set, hend, reads_functionEnd, or_iff_left hnone]

theorem loop_setLead : (cursor setLib setTools).loop State.new setLead =
    ⟨⟨"ok".toList, [⟨0, some "f".toList, []⟩]⟩, ⟨0, true, 0, false, true, some "f".toList⟩, [],
      false⟩ := by
  have hstart := @step_toolCallStart _ setLib setTools State.new
    (toolCallStartToken ++ (toolCallPrefix ++ ("f".toList ++ ['>']))) (prefix_append ..)
  have hfunction := @step_function _ setLib setTools { State.new with isInsideToolCall := true }
    (toolCallPrefix ++ ("f".toList ++ ['>'])) (prefix_append ..)
  have hname : functionStep { State.new with isInsideToolCall := true }
      (toolCallPrefix ++ ("f".toList ++ ['>'])) = .go ⟨[], [⟨0, some "f".toList, []⟩]⟩
        ⟨0, true, 0, false, true, some "f".toList⟩ 12 := by rfl
  rw [setLead, loop_text (by decide), Cursor.loop_go hstart, drop_left,
    Cursor.loop_go (hfunction.trans hname)]
  have hdrop : (toolCallPrefix ++ ("f".toList ++ ['>'])).drop 12 = [] := by decide
  rw [hdrop, loop_nil]
  rfl

theorem setRest_undumped : Undumped setLib setTools (some "f".toList) (setRest "p".toList) := by
  refine ⟨_, (reads_setRest (by decide)).mpr rfl, ?_⟩
  have hset : convertParamValue setLib (cleanup "\x7b1,2\x7d".toList) "p".toList
      (getArgumentsConfig (some "f".toList) setTools) = some .set := by decide
  rintro ⟨value, hvalue, hdumps⟩
  rw [hset, Option.some.injEq] at hvalue
  rw [← hvalue] at hdumps
  cases hdumps

/-- With a cut before the parameter the text `ok` and the name come out before the exception,
without it nothing does. -/
theorem set_value_dependent :
    (streamChunks setLib setTools Detector.new [setLead, setRest "p".toList]).out =
        ⟨"ok".toList, [⟨0, some "f".toList, []⟩]⟩ ∧
      (streamChunks setLib setTools Detector.new [setLead ++ setRest "p".toList]).out = 0 ∧
      ¬ IndependentOfChunks setLib setTools (setLead ++ setRest "p".toList) := by
  have hraised : ((cursor setLib setTools).loop ⟨0, true, 0, false, true, some "f".toList⟩
      (setRest "p".toList)).raised = true := (raised_iff _ _).mpr setRest_undumped
  have hwhole : ((cursor setLib setTools).loop State.new
      (setLead ++ setRest "p".toList)).raised = true := by
    rw [cursor_online.loop_append, loop_setLead]
    exact hraised
  have hcut : (streamChunks setLib setTools Detector.new [setLead, setRest "p".toList]).out =
      ⟨"ok".toList, [⟨0, some "f".toList, []⟩]⟩ := by
    have hlead : parseStreamingIncrement setLib setTools Detector.new setLead =
        (some ⟨"ok".toList, [⟨0, some "f".toList, []⟩]⟩,
          ⟨⟨0, true, 0, false, true, some "f".toList⟩, [], 0⟩) := by
      have hparse := @parseStreamingIncrement_of_loop _ setLib setTools State.new [] setLead
        (by rw [nil_append, loop_setLead])
      rwa [nil_append, loop_setLead] at hparse
    have hrest :=
      (@parseStreamingIncrement_of_raised _ setLib setTools _ [] (setRest "p".toList) hraised).1
    simp only [streamChunks, hlead, hrest]
    rfl
  have hone :
      (streamChunks setLib setTools Detector.new [setLead ++ setRest "p".toList]).out = 0 := by
    have hnone := (@parseStreamingIncrement_of_raised _ setLib setTools _ []
      (setLead ++ setRest "p".toList) hwhole).1
    simp only [streamChunks, Detector.new, hnone]
    rfl
  refine ⟨hcut, hone, fun hall => ?_⟩
  have hsame :=
    hall [setLead, setRest "p".toList] [setLead ++ setRest "p".toList] (by simp) (by simp)
  rw [hsame, hone] at hcut
  cases hcut

/-- A parameter without a type stays a string. -/
theorem string_value_independent :
    IndependentOfChunks setLib setTools (setLead ++ setRest "q".toList) := by
  refine (stream_independent_iff setLib setTools setLib_plain _).mpr fun p hp => ?_
  have hlead : setLead ++ setRest "q".toList = 'o' :: ("k".toList ++
      ('<' :: ("tool_call>".toList ++
        (toolCallPrefix ++ ("f".toList ++ '>' :: setRest "q".toList))))) := by
    rfl
  have hok : ∀ t, ∀ q ∈ functionTags, ¬ q <+: 'o' :: t :=
    fun t q hq => not_tag_of_head (by decide) q (functionTags_taken q hq)
  have hstart : ∀ t, ∀ q ∈ functionTags, ¬ q <+: '<' :: ("tool_call>".toList ++ t) :=
    fun t q hq => takenTags_unique (p := toolCallStartToken) (by decide) (functionTags_taken q hq)
      (prefix_append toolCallStartToken t) (by rintro rfl; revert hq; decide)
  rw [hlead, reads_text (hok _) (by decide), reads_text (hstart _) (by decide),
    reads_function (by decide), reads_setRest (by decide)] at hp
  rw [hp]
  exact ⟨.str "\x7b1,2\x7d".toList, by decide, rfl⟩

end Sglang.FunctionCall.Qwen3Coder
