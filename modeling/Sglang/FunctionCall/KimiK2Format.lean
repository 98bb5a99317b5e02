import Sglang.FunctionCall.KimiK2

/-!
# Texts of Kimi K2

The texts that the model writes: normal text and a section of calls. Each special token starts with
`<` and has no other one, so the tokens in a text are where they were put.

- `Plain`: text without a special token,
- `find_plain_append`, `find_token_append`: where a token is found,
- `Outside`: the text around calls, and what is left of it without the special tokens,
- `Call`, `Call.render`, `tail`: the texts.
-/

namespace Sglang.FunctionCall.KimiK2

open List
open Lib

/-! ## Section 1: Tokens in a text -/

theorem led_of_mem : ∀ p ∈ specialTokens, Led '<' p := by
  have h : ∀ p ∈ specialTokens, p.head? = some '<' ∧ '<' ∉ p.tail := by decide
  intro p hp
  obtain ⟨hhead, htail⟩ := h p hp
  cases p with
  | nil => cases hhead
  | cons c q =>
    rw [head?_cons, Option.some.injEq] at hhead
    exact ⟨q, by rw [hhead], htail⟩

theorem tokens_apart : ∀ p ∈ specialTokens, ∀ q ∈ specialTokens, p <+: q → p = q := by decide

variable {p t w : List Char}

theorem append_token_ne_nil (hp : p ∈ specialTokens) (a z : List Char) :
    a ++ (p ++ z) ≠ [] := by
  obtain ⟨q, rfl, _⟩ := led_of_mem p hp
  simp

def Plain (t : List Char) : Prop := ∀ p ∈ specialTokens, ¬ p <:+: t

theorem Plain.of_isInfix {t t' : List Char} (h : Plain t) (hsub : t' <:+: t) : Plain t' :=
  fun p hp hin => h p hp (hin.trans hsub)

theorem plain_of_not_mem (h : '<' ∉ t) : Plain t := by
  intro p hp hin
  obtain ⟨q, rfl, _⟩ := led_of_mem p hp
  exact h (hin.subset (mem_cons_self ..))

theorem plain_of_space (h : ∀ c ∈ w, isSpace c = true) : Plain w := by
  apply plain_of_not_mem
  intro hin
  exact absurd (h _ hin) (by decide)

section Find

variable {p q t z : List Char}

theorem cut_plain_append (hp : p ∈ specialTokens) (ht : Plain t)
    (hz : z = [] ∨ z.head? = some '<') :
    cut p (t ++ z) = (cut p z).map fun r => (t ++ r.1, r.2) :=
  (led_of_mem p hp).cut_append (ht p hp) hz

theorem cut_token_append (hp : p ∈ specialTokens) (hq : q ∈ specialTokens) (hne : p ≠ q)
    (z : List Char) : cut p (q ++ z) = (cut p z).map fun r => (q ++ r.1, r.2) := by
  apply cut_append_left
  intro h₁ h₂ hsplit hne' hpre
  obtain ⟨q', rfl, hq'⟩ := led_of_mem q hq
  obtain ⟨p', rfl, _⟩ := led_of_mem p hp
  cases h₁ with
  | nil =>
    rw [nil_append] at hsplit
    rw [← hsplit] at hpre
    rcases prefix_or_prefix_of_prefix hpre (prefix_append _ z) with h | h
    · exact hne (tokens_apart _ hp _ hq h)
    · exact hne (tokens_apart _ hq _ hp h).symm
  | cons c h₁ =>
    -- it would start after the only `<`
    rw [cons_append, List.cons.injEq] at hsplit
    obtain ⟨d, h₂, rfl⟩ := exists_cons_of_ne_nil hne'
    obtain ⟨r, hr⟩ := hpre
    rw [cons_append, cons_append, List.cons.injEq] at hr
    apply hq'
    rw [hsplit.2, hr.1]
    simp

theorem cut_self (p z : List Char) : cut p (p ++ z) = some ([], z) := by
  have h := @cut_of_first _ _ p [] z (by
    intro a₁ a₂ ha hne
    exact absurd (append_eq_nil_iff.mp ha.symm).2 hne)
  simpa using h

theorem find_plain_append (hp : p ∈ specialTokens) (ht : Plain t)
    (hz : z = [] ∨ z.head? = some '<') : find p (t ++ z) = (find p z).map (t.length + ·) := by
  rw [find_eq_cut, find_eq_cut, cut_plain_append hp ht hz]
  cases cut p z <;> simp

theorem find_token_append (hp : p ∈ specialTokens) (hq : q ∈ specialTokens) (hne : p ≠ q)
    (z : List Char) : find p (q ++ z) = (find p z).map (q.length + ·) := by
  rw [find_eq_cut, find_eq_cut, cut_token_append hp hq hne]
  cases cut p z <;> simp

theorem find_self (p z : List Char) : find p (p ++ z) = some 0 := by
  rw [find_eq_cut, cut_self]
  rfl

theorem find_plain (hp : p ∈ specialTokens) (ht : Plain t) : find p t = none :=
  find_none (ht p hp)

end Find

/-! ## Section 2: The text around calls -/

theorem remove_plain (hp : p ∈ specialTokens) (ht : Plain t) : remove p t = t := by
  unfold remove
  split
  · rfl
  · next before after h =>
    rw [cut_eq_none_iff.mpr (ht p hp)] at h
    cases h

theorem remove_of_cut {p t a b : List Char} (hp : p ∈ specialTokens) (h : cut p t = some (a, b)) :
    remove p t = a ++ remove p b := by
  have hne : p ≠ [] := by
    rintro rfl
    exact absurd hp (by decide)
  rw [remove]
  split
  · next hnone =>
    rw [h] at hnone
    cases hnone
  · next before after hcut =>
    rw [h, Option.some.injEq, Prod.mk.injEq] at hcut
    obtain ⟨rfl, rfl⟩ := hcut
    rw [if_neg hne]

theorem tokens_end : ∀ p ∈ specialTokens, p.getLast? = some '>' := by decide

theorem Plain.append_space (ht : Plain t) (hw : ∀ c ∈ w, isSpace c = true) :
    Plain (t ++ w) := by
  rintro p hp ⟨a, b, heq⟩
  rcases append_eq_append_iff.mp heq with ⟨u, ha, hb⟩ | ⟨u, ha, hb⟩
  · exact ht p hp ⟨a, u, ha.symm⟩
  · -- the token ends in the space
    by_cases hu : u = []
    · rw [hu, append_nil] at ha
      exact ht p hp ⟨a, [], by rw [append_nil, ha]⟩
    have hlast : (a ++ p).getLast? = some '>' := by
      rw [getLast?_append, tokens_end p hp]
      rfl
    rw [ha, getLast?_append_of_ne_nil _ hu] at hlast
    have hin : '>' ∈ w := by
      rw [hb]
      exact mem_append_left _ (mem_of_getLast? hlast)
    exact absurd (hw _ hin) (by decide)

theorem remove_of_cut_none (h : cut p t = none) : remove p t = t := by
  unfold remove
  split
  · rfl
  · next before after hcut =>
    rw [h] at hcut
    cases hcut

theorem cut_nil (hp : p ∈ specialTokens) : cut p [] = none := by
  rw [cut_eq_none_iff]
  intro hin
  rw [infix_nil.mp hin] at hp
  exact absurd hp (by decide)

theorem stripSpecialTokens_of_remove {x m : List Char} (hm : Plain m)
    (h : remove botToken x = m ∨ remove botToken x = m ++ eotToken) : stripSpecialTokens x = m := by
  have heot : remove eotToken (remove botToken x) = m := by
    rcases h with h | h
    · rw [h, remove_plain (by decide) hm]
    · have hcut : cut eotToken (m ++ eotToken) = some (m, []) := by
        have hself := cut_self eotToken []
        rw [append_nil] at hself
        rw [cut_plain_append (by decide) hm (.inr rfl), hself]
        simp
      rw [h, remove_of_cut (by decide) hcut, remove_of_cut_none (cut_nil (by decide)),
        append_nil]
  simp only [stripSpecialTokens, specialTokens, foldl_cons, foldl_nil]
  rw [heot, remove_plain (by decide) hm, remove_plain (by decide) hm, remove_plain (by decide) hm]

/-- Text outside of calls, and what is left of it without tokens. -/
inductive Outside : List Char → List Char → Prop where
  | plain {n : List Char} (hn : Plain n) : Outside n n
  | afterBegin {n w : List Char} (hn : Plain n) (hw : ∀ c ∈ w, isSpace c = true) :
      Outside (n ++ botToken ++ w) (n ++ w)

theorem Outside.left_plain {x y : List Char} (h : Outside x y) : Plain y := by
  cases h with
  | plain hn => exact hn
  | afterBegin hn hw => exact hn.append_space hw

theorem Outside.remove_bot {x y : List Char} (h : Outside x y) {z : List Char}
    (hz : z = [] ∨ z = eotToken) : remove botToken (x ++ z) = y ++ z := by
  have hcutz : cut botToken z = none := by
    rcases hz with rfl | rfl
    · exact cut_nil (by decide)
    · decide
  have hhead : z = [] ∨ z.head? = some '<' := by
    rcases hz with rfl | rfl
    · exact .inl rfl
    · exact .inr rfl
  cases h with
  | plain hn =>
    apply remove_of_cut_none
    rw [cut_plain_append (by decide) hn hhead, hcutz]
    rfl
  | @afterBegin n w hn hw =>
    have hcut : cut botToken (n ++ botToken ++ w ++ z) = some (n, w ++ z) := by
      rw [append_assoc, append_assoc, cut_plain_append (by decide) hn (.inr rfl), cut_self]
      simp
    rw [remove_of_cut (by decide) hcut, append_assoc]
    congr 1
    apply remove_of_cut_none
    rw [cut_plain_append (by decide) (plain_of_space hw) hhead, hcutz]
    rfl

theorem Outside.strip_eq {x y : List Char} (h : Outside x y) : stripSpecialTokens x = y := by
  apply stripSpecialTokens_of_remove h.left_plain
  left
  have := h.remove_bot (.inl rfl)
  simpa using this

theorem Outside.strip_end {x y : List Char} (h : Outside x y) :
    stripSpecialTokens (x ++ eotToken) = y :=
  stripSpecialTokens_of_remove h.left_plain (.inr (h.remove_bot (.inr rfl)))

/-! ## Section 3: Held text -/

theorem splitPendingStart_spec (text : List Char) :
    (splitPendingStart text).1 ++ (splitPendingStart text).2 = text ∧
      ((splitPendingStart text).2 = [] ∨
        ((splitPendingStart text).2.length < botToken.length ∧
          ∃ t ∈ [botToken, toolCallStartToken], (splitPendingStart text).2 <+: t)) := by
  unfold splitPendingStart
  dsimp only
  split
  · next n hn =>
    refine ⟨take_append_drop _ _, .inr ⟨?_, ?_⟩⟩
    · have hmem := mem_of_find?_eq_some hn
      rw [mem_reverse, mem_range'_1] at hmem
      have hbot : botToken.length = 28 := by decide
      have hstart : toolCallStartToken.length = 19 := by decide
      rw [length_drop]
      omega
    · have hany := find?_some hn
      simpa using hany
  · exact ⟨append_nil _, .inl rfl⟩

theorem splitPendingStart_led {text : List Char} (h : (splitPendingStart text).2 ≠ []) :
    ∃ r, (splitPendingStart text).2 = '<' :: r ∧ '<' ∉ r := by
  rcases (splitPendingStart_spec text).2 with hnil | ⟨_, t, ht, hpre⟩
  · exact absurd hnil h
  · have hmem : t ∈ specialTokens := by
      simp only [mem_cons, not_mem_nil, or_false] at ht
      rcases ht with rfl | rfl <;> decide
    obtain ⟨q, rfl, hq⟩ := led_of_mem t hmem
    obtain ⟨c, r, hr⟩ := exists_cons_of_ne_nil h
    rw [hr] at hpre ⊢
    obtain ⟨z, hz⟩ := hpre
    rw [cons_append, List.cons.injEq] at hz
    refine ⟨r, by rw [hz.1], fun hin => hq ?_⟩
    rw [← hz.2]
    exact mem_append_left _ hin

theorem after_last {c : Char} {a a' b b' : List Char} (h : a ++ c :: b = a' ++ c :: b') (hb : c ∉ b)
    (hb' : c ∉ b') : b = b' := by
  rcases append_eq_append_iff.mp h with ⟨u, _, hu⟩ | ⟨u, _, hu⟩
  · cases u with
    | nil => exact (List.cons.inj hu).2
    | cons d u =>
      refine absurd ?_ hb
      rw [(List.cons.inj hu).2]
      simp
  · cases u with
    | nil => exact (List.cons.inj hu).2.symm
    | cons d u =>
      refine absurd ?_ hb'
      rw [(List.cons.inj hu).2]
      simp

theorem splitPendingStart_of_token {x p w : List Char} (hp : p = botToken ∨ p = eotToken)
    (hw : '<' ∉ w) : splitPendingStart (x ++ p ++ w) = (x ++ p ++ w, []) := by
  have hhold : (splitPendingStart (x ++ p ++ w)).2 = [] := by
    by_contra hne
    obtain ⟨r, hr, hnot⟩ := splitPendingStart_led hne
    obtain ⟨hsplit, hspec⟩ := splitPendingStart_spec (x ++ p ++ w)
    obtain ⟨hlen, t, ht, hpre⟩ := hspec.resolve_left hne
    have hmem : p ∈ specialTokens := by
      rcases hp with rfl | rfl <;> decide
    obtain ⟨p', hp', hnot'⟩ := led_of_mem p hmem
    have hrest : r = p' ++ w := by
      have hboth : (splitPendingStart (x ++ p ++ w)).1 ++ '<' :: r = x ++ '<' :: (p' ++ w) := by
        rw [← hr, hsplit, hp', append_assoc, cons_append]
      exact after_last hboth hnot (by simp [hnot', hw])
    have hhold : (splitPendingStart (x ++ p ++ w)).2 = p ++ w := by
      rw [hr, hrest, hp', cons_append]
    rw [hhold] at hlen hpre
    rcases hp with rfl | rfl
    · rw [length_append] at hlen
      omega
    · have hpre' := (prefix_append eotToken w).trans hpre
      simp only [mem_cons, not_mem_nil, or_false] at ht
      rcases ht with rfl | rfl
      · exact absurd (tokens_apart _ (by decide) _ (by decide) hpre') (by decide)
      · exact absurd (tokens_apart _ (by decide) _ (by decide) hpre') (by decide)
  have hsplit := (splitPendingStart_spec (x ++ p ++ w)).1
  rw [hhold, append_nil] at hsplit
  exact Prod.ext hsplit hhold

theorem splitPendingStart_of_not_mem (hw : '<' ∉ w) :
    splitPendingStart w = (w, []) := by
  obtain ⟨hsplit, _⟩ := splitPendingStart_spec w
  have hhold : (splitPendingStart w).2 = [] := by
    by_contra hne
    obtain ⟨r, hr, _⟩ := splitPendingStart_led hne
    apply hw
    rw [← hsplit, hr]
    simp
  rw [hhold, append_nil] at hsplit
  exact Prod.ext hsplit hhold

/-! ## Section 4: Texts -/

theorem strip_between {w s w' : List Char} (hs : s ≠ []) (hw : ∀ c ∈ w, isSpace c = true)
    (hw' : ∀ c ∈ w', isSpace c = true) (hfirst : ∀ d, s.head? = some d → isSpace d = false)
    (hlast : ∀ d, s.getLast? = some d → isSpace d = false) : strip (w ++ s ++ w') = s := by
  have hdrop : (w ++ s ++ w').dropWhile isSpace = s ++ w' := by
    rw [append_assoc, dropWhile_append_of_pos hw]
    obtain ⟨d, r, rfl⟩ := exists_cons_of_ne_nil hs
    rw [cons_append, dropWhile_cons, hfirst d rfl]
    rfl
  have hback : (s ++ w').reverse.dropWhile isSpace = s.reverse := by
    rw [reverse_append, dropWhile_append_of_pos fun x hx => hw' x (mem_reverse.mp hx)]
    obtain ⟨d, r, hr⟩ := exists_cons_of_ne_nil (reverse_ne_nil_iff.mpr hs)
    have hd : isSpace d = false := by
      apply hlast
      rw [← head?_reverse, hr]
      rfl
    rw [hr, dropWhile_cons, hd]
    rfl
  rw [strip, hdrop, hback, reverse_reverse]

/-- A call: an id with space around it, and the text of a JSON object with blanks around it. -/
structure Call where
  id : List Char
  idBefore : List Char
  idAfter : List Char
  body : List Char
  bodyBefore : List Char
  bodyAfter : List Char
  members : List (List Nat × Json)
  id_ne : id ≠ []
  id_chars : ∀ c ∈ id, isSpace c = false ∧ c ≠ '<' ∧ c ≠ '|'
  idBefore_space : ∀ c ∈ idBefore, isSpace c = true
  idAfter_space : ∀ c ∈ idAfter, isSpace c = true
  body_opens : body.head? = some '\x7b'
  body_closes : body.getLast? = some '\x7d'
  body_loads : Json.loads body = some (.obj members)
  bodyBefore_blank : ∀ c ∈ bodyBefore, Json.isBlank c = true
  bodyAfter_blank : ∀ c ∈ bodyAfter, Json.isBlank c = true
  plain : Plain (bodyBefore ++ body ++ bodyAfter)

namespace Call

variable (c : Call)

def header : List Char := c.idBefore ++ c.id ++ c.idAfter

def args : List Char := c.bodyBefore ++ c.body ++ c.bodyAfter

def render : List Char :=
  toolCallStartToken ++ (c.header ++ (toolCallArgumentBeginToken ++ (c.args ++ toolCallEndToken)))

theorem header_not_mem : '<' ∉ c.header := by
  have hspace : isSpace '<' = false := by decide
  simp only [header, mem_append, not_or]
  refine ⟨⟨fun hin => ?_, fun hin => (c.id_chars _ hin).2.1 rfl⟩, fun hin => ?_⟩
  · exact absurd (c.idBefore_space _ hin) (by decide)
  · exact absurd (c.idAfter_space _ hin) (by decide)

theorem header_plain : Plain c.header := plain_of_not_mem c.header_not_mem

theorem args_plain : Plain c.args := c.plain

theorem strip_header : strip c.header = c.id := by
  apply strip_between c.id_ne c.idBefore_space c.idAfter_space
  · intro d hd
    exact (c.id_chars d (mem_of_head? hd)).1
  · intro d hd
    exact (c.id_chars d (mem_of_getLast? hd)).1

end Call

/-- The calls of a section, each with the space after it, and the end of the section. -/
def tail : List (Call × List Char) → List Char
  | [] => eotToken
  | (c, w) :: cs => c.render ++ (w ++ tail cs)

/-- A text: normal text, the begin of a section, space, and the calls. -/
structure Text where
  normal : List Char
  space : List Char
  calls : List (Call × List Char)
  normal_plain : Plain normal
  space_space : ∀ c ∈ space, isSpace c = true
  calls_space : ∀ cw ∈ calls, ∀ c ∈ cw.2, isSpace c = true

def Text.render (t : Text) : List Char := t.normal ++ (botToken ++ (t.space ++ tail t.calls))

theorem tail_head (cs : List (Call × List Char)) : (tail cs).head? = some '<' := by
  cases cs with
  | nil => rfl
  | cons cw cs => rfl

def Cuts (s q : List Char) : Prop :=
  ∃ p ∈ specialTokens, ∃ a b, a ≠ [] ∧ b ≠ [] ∧ p = a ++ b ∧ a <:+ s ∧ b <+: q

theorem Cuts.of_suffix {s s' q : List Char} (h : Cuts s q) (hs : s <:+ s') : Cuts s' q := by
  obtain ⟨p, hp, a, b, ha, hb, heq, hsuf, hpre⟩ := h
  exact ⟨p, hp, a, b, ha, hb, heq, hsuf.trans hs, hpre⟩

theorem token_cases {p s q z : List Char} (hp : p ∈ specialTokens) (hcut : ¬ Cuts s q)
    (h : s ++ q = p ++ z) : (s = [] ∧ q = p ++ z) ∨ ∃ s', s = p ++ s' ∧ s' ++ q = z := by
  rcases append_eq_append_iff.mp h with ⟨u, hu, hq⟩ | ⟨u, hu, hz⟩
  · by_cases hs : s = []
    · exact .inl ⟨hs, by rw [hq, hu, hs]; simp⟩
    by_cases hu' : u = []
    · rw [hu', append_nil] at hu
      rw [hu', nil_append] at hq
      exact .inr ⟨[], by rw [hu, append_nil], hq⟩
    · exact absurd ⟨p, hp, s, u, hs, hu', hu, suffix_rfl, by rw [hq]; exact prefix_append u z⟩
        hcut
  · exact .inr ⟨u, hu, hz.symm⟩

end Sglang.FunctionCall.KimiK2
