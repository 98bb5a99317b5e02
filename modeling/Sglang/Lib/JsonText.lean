import Mathlib.Data.List.Basic
import Mathlib.Data.List.TakeWhile
import Mathlib.Tactic

/-!
# JSON Texts

Reading JSON: a scanner for strings, numbers and literals, and a reader of values by fuel. Decoded
strings are code points, so that a lone surrogate has a place. `NaN` and the infinities are literals
as well.

- `loads`: the value of a text,
- `readValue_append`: what was read in front of more text stays the same,
- `loads_of_isPrefix`: a beginning of a text of an object that is a JSON text has the same value.
-/

namespace Sglang.Lib

open List Option

/-- A value, with numbers as they are written. -/
inductive Json where
  | null
  | bool (b : Bool)
  | number (literal : List Char)
  | str (codes : List Nat)
  | arr (items : List Json)
  | obj (members : List (List Nat × Json))

namespace Json

def codes (s : List Char) : List Nat := s.map Char.toNat

/-! ## Section 1: Scanners -/

def isBlank (c : Char) : Bool := c = ' ' || c = '\t' || c = '\n' || c = '\r'

def skip (s : List Char) : List Char := s.dropWhile isBlank

def hexVal (c : Char) : Option Nat :=
  if '0' ≤ c ∧ c ≤ '9' then some (c.toNat - 48)
  else if 'a' ≤ c ∧ c ≤ 'f' then some (c.toNat - 87)
  else if 'A' ≤ c ∧ c ≤ 'F' then some (c.toNat - 55)
  else none

def hex4 (a b c d : Char) : Option Nat := do
  let a ← hexVal a
  let b ← hexVal b
  let c ← hexVal c
  let d ← hexVal d
  some (((a * 16 + b) * 16 + c) * 16 + d)

def escape : Char → Option Nat
  | '\x22' => some 34
  | '\x5c' => some 92
  | '/' => some 47
  | 'b' => some 8
  | 'f' => some 12
  | 'n' => some 10
  | 'r' => some 13
  | 't' => some 9
  | _ => none

/-- A string after its opening quote: its units, and what follows. -/
def scanString : List Char → Option (List Nat × List Char)
  | [] => none
  | '\x22' :: s => some ([], s)
  | '\x5c' :: 'u' :: a :: b :: c :: d :: s => do
    let u ← hex4 a b c d
    let (us, r) ← scanString s
    some (u :: us, r)
  | '\x5c' :: e :: s => do
    let u ← escape e
    let (us, r) ← scanString s
    some (u :: us, r)
  | c :: s =>
    if c.toNat < 32 ∨ c = '\x5c' then none
    else do
      let (us, r) ← scanString s
      some (c.toNat :: us, r)

def isHigh (u : Nat) : Bool := 0xD800 ≤ u && u < 0xDC00

def isLow (u : Nat) : Bool := 0xDC00 ≤ u && u < 0xE000

/-- Two surrogates in a row are one code point. -/
def combine : List Nat → List Nat
  | [] => []
  | [u] => [u]
  | h :: l :: us =>
    if isHigh h && isLow l then (0x10000 + (h - 0xD800) * 0x400 + (l - 0xDC00)) :: combine us
    else h :: combine (l :: us)

def isNumberChar (c : Char) : Bool :=
  c.isDigit || c = '-' || c = '+' || c = '.' || c = 'e' || c = 'E'

def allDigits (s : List Char) : Bool := !s.isEmpty && s.all Char.isDigit

/-- `-?(0|[1-9][0-9]*)(\.[0-9]+)?([eE][-+]?[0-9]+)?`, as a whole. -/
def isNumber (s : List Char) : Bool :=
  let unsigned := if s.head? = some '-' then s.tail else s
  let int := unsigned.takeWhile Char.isDigit
  let rest := unsigned.dropWhile Char.isDigit
  let frac := if rest.head? = some '.' then rest.tail.takeWhile Char.isDigit else []
  let rest' := if rest.head? = some '.' then rest.tail.dropWhile Char.isDigit else rest
  let exp := if rest'.head? = some 'e' ∨ rest'.head? = some 'E' then rest'.tail else []
  let expDigits := if exp.head? = some '-' ∨ exp.head? = some '+' then exp.tail else exp
  allDigits int && (int.length = 1 || int.head? ≠ some '0') &&
    (rest.head? ≠ some '.' || allDigits frac) &&
    (rest'.isEmpty || allDigits expDigits)

def keywords : List (List Char × Json) :=
  [("null".toList, .null), ("true".toList, .bool true), ("false".toList, .bool false),
    ("NaN".toList, .number "NaN".toList), ("Infinity".toList, .number "Infinity".toList),
    ("-Infinity".toList, .number "-Infinity".toList)]

/-- A keyword or a number. A number goes on as long as characters of numbers follow: what a shorter
number would leave of them is an error anyway. -/
def scanAtom (s : List Char) : Option (Json × List Char) :=
  match keywords.find? fun k => decide (k.1 <+: s) with
  | some k => some (k.2, s.drop k.1.length)
  | none =>
    let literal := s.takeWhile isNumberChar
    if isNumber literal then some (.number literal, s.dropWhile isNumberChar) else none

/-! ## Section 2: Values -/

mutual

/-- A value at the start of a text, and what follows. -/
def readValue : Nat → List Char → Option (Json × List Char)
  | 0, _ => none
  | n + 1, s =>
    match s with
    | '\x22' :: r => (scanString r).map fun p => (.str (combine p.1), p.2)
    | '\x7b' :: r =>
      match skip r with
      | '\x7d' :: r' => some (.obj [], r')
      | r' => (readMembers n r').map fun p => (.obj p.1, p.2)
    | '[' :: r =>
      match skip r with
      | ']' :: r' => some (.arr [], r')
      | r' => (readItems n r').map fun p => (.arr p.1, p.2)
    | s => scanAtom s

/-- The members of an object, from the quote of a key on. -/
def readMembers : Nat → List Char → Option (List (List Nat × Json) × List Char)
  | 0, _ => none
  | n + 1, s =>
    match s with
    | '\x22' :: r => do
      let (key, r) ← scanString r
      match skip r with
      | ':' :: r => do
        let (value, r) ← readValue n (skip r)
        match skip r with
        | ',' :: r => do
          let (members, r) ← readMembers n (skip r)
          some ((combine key, value) :: members, r)
        | '\x7d' :: r => some ([(combine key, value)], r)
        | _ => none
      | _ => none
    | _ => none

def readItems : Nat → List Char → Option (List Json × List Char)
  | 0, _ => none
  | n + 1, s => do
    let (value, r) ← readValue n s
    match skip r with
    | ',' :: r => do
      let (items, r) ← readItems n (skip r)
      some (value :: items, r)
    | ']' :: r => some ([value], r)
    | _ => none

end

/-- The value of a text: one value, with blanks around it. -/
def loads (s : List Char) : Option Json :=
  match readValue (s.length + 1) (skip s) with
  | some (value, r) => if skip r = [] then some value else none
  | none => none

/-! ## Section 3: More text -/

variable {s : List Char} {c : Char} {r : List Char} {v : Json} {n : Nat} {value : Json}

theorem skip_append (h : skip s ≠ []) (t : List Char) :
    skip (s ++ t) = skip s ++ t := by
  induction s with
  | nil => exact absurd rfl h
  | cons c s ih =>
    unfold skip at h ih ⊢
    rw [cons_append, dropWhile_cons, dropWhile_cons]
    split
    · next hc =>
      rw [dropWhile_cons, if_pos hc] at h
      exact ih h
    · rfl

theorem scanString_plain (hquote : c ≠ '\x22') (hslash : c ≠ '\x5c')
    (hcontrol : ¬ c.toNat < 32) (s : List Char) :
    scanString (c :: s) = (scanString s).map fun p => (c.toNat :: p.1, p.2) := by
  rw [scanString]
  · rw [if_neg (by simp [hcontrol, hslash])]
    cases scanString s <;> rfl
  · exact hquote
  · exact fun _ _ _ _ _ h => absurd h hslash
  · exact fun _ _ h => absurd h hslash

theorem scanString_append {us : List Nat} (h : scanString s = some (us, r))
    (t : List Char) : scanString (s ++ t) = some (us, r ++ t) := by
  fun_induction scanString s generalizing us with
  | case1 => cases h
  | case2 s =>
    cases h
    simp [scanString]
  | case3 a b c d s ih =>
    simp only [bind_eq_bind, bind_eq_some_iff] at h
    obtain ⟨u, hu, ⟨us', r'⟩, hrest, heq⟩ := h
    cases heq
    simp [scanString, hu, ih hrest]
  | case4 e s hnot ih =>
    simp only [bind_eq_bind, bind_eq_some_iff] at h
    obtain ⟨u, hu, ⟨us', r'⟩, hrest, heq⟩ := h
    cases heq
    have he : e ≠ 'u' := by
      rintro rfl
      cases hu
    simp [scanString, he, hu, ih hrest]
  | case5 c s hc hquote hu he =>
    cases h
  | case6 c s hquote hu he hc ih =>
    simp only [bind_eq_bind, bind_eq_some_iff] at h
    obtain ⟨⟨us', r'⟩, hrest, heq⟩ := h
    cases heq
    rw [not_or] at hc
    simp [scanString_plain hquote hc.2 hc.1, ih hrest]

/-- A text that starts with a character that is in no number. -/
def Ends (r : List Char) : Prop := ∃ c r', r = c :: r' ∧ isNumberChar c = false

theorem scanAtom_of_isPrefix : ∀ k ∈ keywords.map Prod.fst, ∀ s ∈ k.inits, s ≠ k →
    (scanAtom s).isNone := by decide

theorem keyword_append (h : (scanAtom s).isSome) (t : List Char) :
    ∀ k ∈ keywords.map Prod.fst, k <+: s ++ t ↔ k <+: s := by
  intro k hk
  refine ⟨fun hpre => ?_, fun hpre => hpre.trans (prefix_append s t)⟩
  by_contra hnot
  rcases prefix_or_prefix_of_prefix hpre (prefix_append s t) with hks | hsk
  · exact hnot hks
  · have hnone := scanAtom_of_isPrefix k hk s ((mem_inits _ _).mpr hsk) (by
      rintro rfl
      exact hnot prefix_rfl)
    rw [isNone_iff_eq_none] at hnone
    rw [hnone] at h
    cases h

theorem span_append {p : Char → Bool} (h : s.dropWhile p = c :: r)
    (t : List Char) : (s ++ t).takeWhile p = s.takeWhile p ∧
    (s ++ t).dropWhile p = c :: r ++ t := by
  induction s with
  | nil => cases h
  | cons d s ih =>
    rw [dropWhile_cons] at h
    simp only [cons_append, takeWhile_cons, dropWhile_cons]
    by_cases hd : p d
    · rw [if_pos hd] at h
      simp only [hd, if_true]
      exact ⟨by rw [(ih h).1], (ih h).2⟩
    · rw [if_neg hd] at h
      simp only [hd, Bool.false_eq_true, if_false, true_and]
      rw [← cons_append, h]
      rfl

theorem scanAtom_append (h : scanAtom s = some (v, r)) (hr : Ends r)
    (t : List Char) : scanAtom (s ++ t) = some (v, r ++ t) := by
  have hfind : (keywords.find? fun k => decide (k.1 <+: s ++ t)) =
      keywords.find? fun k => decide (k.1 <+: s) := by
    apply find?_congr
    intro k hk
    have := keyword_append (by rw [h]; rfl) t k.1 (List.mem_map.mpr ⟨k, hk, rfl⟩)
    exact decide_eq_decide.mpr this
  unfold scanAtom at h ⊢
  rw [hfind]
  cases hk : keywords.find? fun k => decide (k.1 <+: s) with
  | some k =>
    rw [hk] at h
    cases h
    have hpre : k.1 <+: s := by simpa using find?_some hk
    dsimp only
    rw [drop_append_of_le_length hpre.length_le]
  | none =>
    rw [hk] at h
    dsimp only at h ⊢
    obtain ⟨c, r', rfl, _⟩ := hr
    split at h
    · next hnumber =>
      simp only [Option.some.injEq, Prod.mk.injEq] at h
      obtain ⟨htake, hdrop⟩ := span_append h.2 t
      rw [htake, hdrop, if_pos hnumber, h.1]
    · cases h

/-- What the reader has read stays the same with more text, unless it is a number at the end. -/
def Stable (n : Nat) : Prop :=
  (∀ {s r v}, readValue n s = some (v, r) →
    (Ends r ∨ s.head? = some '\x22' ∨ s.head? = some '\x7b' ∨ s.head? = some '[') →
    ∀ t, readValue n (s ++ t) = some (v, r ++ t)) ∧
  (∀ {s r ms}, readMembers n s = some (ms, r) → ∀ t, readMembers n (s ++ t) = some (ms, r ++ t)) ∧
  ∀ {s r is}, readItems n s = some (is, r) → ∀ t, readItems n (s ++ t) = some (is, r ++ t)

theorem ends_of_skip {r r' : List Char} (h : skip r = c :: r')
    (hc : isNumberChar c = false) : Ends r := by
  cases r with
  | nil => cases h
  | cons d r =>
    refine ⟨d, r, rfl, ?_⟩
    unfold skip at h
    rw [dropWhile_cons] at h
    split at h
    · next hd =>
      simp only [isBlank, Bool.or_eq_true, decide_eq_true_eq] at hd
      rcases hd with ((rfl | rfl) | rfl) | rfl <;> decide
    · cases h
      exact hc

theorem readValue_atom (hquote : s.head? ≠ some '\x22')
    (hbrace : s.head? ≠ some '\x7b') (hbracket : s.head? ≠ some '[') :
    readValue (n + 1) s = scanAtom s := by
  unfold readValue
  split
  · exact absurd rfl hquote
  · exact absurd rfl hbrace
  · exact absurd rfl hbracket
  · rfl

theorem readValue_members (h : (skip r).head? ≠ some '\x7d') :
    readValue (n + 1) ('\x7b' :: r) = (readMembers n (skip r)).map fun p => (.obj p.1, p.2) := by
  simp only [readValue]
  split
  · next heq => exact absurd (by rw [heq]; rfl) h
  · rfl

theorem readValue_items (h : (skip r).head? ≠ some ']') :
    readValue (n + 1) ('[' :: r) = (readItems n (skip r)).map fun p => (.arr p.1, p.2) := by
  simp only [readValue]
  split
  · next heq => exact absurd (by rw [heq]; rfl) h
  · rfl

theorem readMembers_nil (n : Nat) : readMembers n [] = none := by
  cases n <;> rfl

theorem readValue_nil (n : Nat) : readValue n [] = none := by
  cases n <;> rfl

theorem readItems_nil (n : Nat) : readItems n [] = none := by
  cases n with
  | zero => rfl
  | succ n =>
    unfold readItems
    rw [readValue_nil]
    rfl

theorem head?_append_of_ne_nil (h : s ≠ []) (t : List Char) :
    (s ++ t).head? = s.head? := by
  obtain ⟨c, s, rfl⟩ := exists_cons_of_ne_nil h
  rfl

theorem cons_of_head? (h : s.head? = some c) : ∃ r, s = c :: r := by
  cases s with
  | nil => cases h
  | cons d r =>
    rw [head?_cons, Option.some.injEq] at h
    exact ⟨r, by rw [h]⟩

theorem readValue_append (ih : Stable n)
    (h : readValue (n + 1) s = some (v, r))
    (hr : Ends r ∨ s.head? = some '\x22' ∨ s.head? = some '\x7b' ∨
      s.head? = some '[') (t : List Char) :
    readValue (n + 1) (s ++ t) = some (v, r ++ t) := by
  have hne : s ≠ [] := by
    rintro rfl
    cases h
  -- only an atom can go on into the appended text
  by_cases hquote : s.head? = some '\x22'
  · obtain ⟨s, rfl⟩ := cons_of_head? hquote
    simp only [readValue] at h
    obtain ⟨⟨us, r'⟩, hscan, heq⟩ := map_eq_some_iff.mp h
    cases heq
    simp [readValue, scanString_append hscan]
  by_cases hbrace : s.head? = some '\x7b'
  · obtain ⟨s, rfl⟩ := cons_of_head? hbrace
    by_cases hclose : (skip s).head? = some '\x7d'
    · obtain ⟨r', hr'⟩ := cons_of_head? hclose
      have hskip : skip (s ++ t) = '\x7d' :: (r' ++ t) := by
        rw [skip_append (by rw [hr']; simp), hr']
        rfl
      simp only [readValue, hr'] at h
      cases h
      simp [readValue, hskip]
    · rw [readValue_members hclose] at h
      obtain ⟨⟨ms, r'⟩, hread, heq⟩ := map_eq_some_iff.mp h
      cases heq
      have hskip : skip s ≠ [] := by
        intro hnil
        rw [hnil, readMembers_nil] at hread
        cases hread
      have hclose' : (skip (s ++ t)).head? ≠ some '\x7d' := by
        rw [skip_append hskip, head?_append_of_ne_nil hskip]
        exact hclose
      rw [cons_append, readValue_members hclose', skip_append hskip, ih.2.1 hread]
      rfl
  by_cases hbracket : s.head? = some '['
  · obtain ⟨s, rfl⟩ := cons_of_head? hbracket
    by_cases hclose : (skip s).head? = some ']'
    · obtain ⟨r', hr'⟩ := cons_of_head? hclose
      have hskip : skip (s ++ t) = ']' :: (r' ++ t) := by
        rw [skip_append (by rw [hr']; simp), hr']
        rfl
      simp only [readValue, hr'] at h
      cases h
      simp [readValue, hskip]
    · rw [readValue_items hclose] at h
      obtain ⟨⟨is, r'⟩, hread, heq⟩ := map_eq_some_iff.mp h
      cases heq
      have hskip : skip s ≠ [] := by
        intro hnil
        rw [hnil, readItems_nil] at hread
        cases hread
      have hclose' : (skip (s ++ t)).head? ≠ some ']' := by
        rw [skip_append hskip, head?_append_of_ne_nil hskip]
        exact hclose
      rw [cons_append, readValue_items hclose', skip_append hskip, ih.2.2 hread]
      rfl
  · rw [readValue_atom hquote hbrace hbracket] at h
    have hends : Ends r := by
      rcases hr with hr | hr | hr | hr
      · exact hr
      · exact absurd hr hquote
      · exact absurd hr hbrace
      · exact absurd hr hbracket
    have hhead := head?_append_of_ne_nil hne t
    rw [readValue_atom (hhead ▸ hquote) (hhead ▸ hbrace) (hhead ▸ hbracket)]
    exact scanAtom_append h hends t

theorem readMembers_cases {ms : List (List Nat × Json)}
    (h : readMembers (n + 1) s = some (ms, r)) :
    ∃ s₀ key r₁ r₂ value r₃, s = '\x22' :: s₀ ∧ scanString s₀ = some (key, r₁) ∧
      skip r₁ = ':' :: r₂ ∧ readValue n (skip r₂) = some (value, r₃) ∧
      ((∃ r₄ ms', skip r₃ = ',' :: r₄ ∧ readMembers n (skip r₄) = some (ms', r) ∧
          ms = (combine key, value) :: ms') ∨
        (skip r₃ = '\x7d' :: r ∧ ms = [(combine key, value)])) := by
  unfold readMembers at h
  split at h
  · next s₀ =>
    simp only [bind_eq_bind, bind_eq_some_iff] at h
    obtain ⟨⟨key, r₁⟩, hscan, h⟩ := h
    dsimp only at h
    split at h
    · next r₂ hcolon =>
      simp only [bind_eq_some_iff] at h
      obtain ⟨⟨value, r₃⟩, hvalue, h⟩ := h
      dsimp only at h
      refine ⟨s₀, key, r₁, r₂, value, r₃, rfl, hscan, hcolon, hvalue, ?_⟩
      split at h
      · next r₄ hcomma =>
        simp only [bind_eq_some_iff] at h
        obtain ⟨⟨ms', r'⟩, hrest, heq⟩ := h
        cases heq
        exact .inl ⟨r₄, ms', hcomma, hrest, rfl⟩
      · next r₄ hclose =>
        cases h
        exact .inr ⟨hclose, rfl⟩
      · cases h
    · cases h
  · cases h

theorem readMembers_more {s₀ r₁ r₂ r₃ r₄ r : List Char} {key : List Nat}
    {ms : List (List Nat × Json)} (hscan : scanString s₀ = some (key, r₁))
    (hcolon : skip r₁ = ':' :: r₂) (hvalue : readValue n (skip r₂) = some (value, r₃))
    (hcomma : skip r₃ = ',' :: r₄) (hrest : readMembers n (skip r₄) = some (ms, r)) :
    readMembers (n + 1) ('\x22' :: s₀) = some ((combine key, value) :: ms, r) := by
  simp [readMembers, hscan, hcolon, hvalue, hcomma, hrest]

theorem readMembers_last {s₀ r₁ r₂ r₃ r : List Char} {key : List Nat}
    (hscan : scanString s₀ = some (key, r₁)) (hcolon : skip r₁ = ':' :: r₂)
    (hvalue : readValue n (skip r₂) = some (value, r₃)) (hclose : skip r₃ = '\x7d' :: r) :
    readMembers (n + 1) ('\x22' :: s₀) = some ([(combine key, value)], r) := by
  simp [readMembers, hscan, hcolon, hvalue, hclose]

theorem readItems_cases {is : List Json}
    (h : readItems (n + 1) s = some (is, r)) :
    ∃ value r₁, readValue n s = some (value, r₁) ∧
      ((∃ r₂ is', skip r₁ = ',' :: r₂ ∧ readItems n (skip r₂) = some (is', r) ∧ is = value :: is') ∨
        (skip r₁ = ']' :: r ∧ is = [value])) := by
  unfold readItems at h
  simp only [bind_eq_bind, bind_eq_some_iff] at h
  obtain ⟨⟨value, r₁⟩, hvalue, h⟩ := h
  dsimp only at h
  refine ⟨value, r₁, hvalue, ?_⟩
  split at h
  · next r₂ hcomma =>
    simp only [bind_eq_some_iff] at h
    obtain ⟨⟨is', r'⟩, hrest, heq⟩ := h
    cases heq
    exact .inl ⟨r₂, is', hcomma, hrest, rfl⟩
  · next r₂ hclose =>
    cases h
    exact .inr ⟨hclose, rfl⟩
  · cases h

theorem readItems_more {s r₁ r₂ r : List Char} {is : List Json}
    (hvalue : readValue n s = some (value, r₁)) (hcomma : skip r₁ = ',' :: r₂)
    (hrest : readItems n (skip r₂) = some (is, r)) :
    readItems (n + 1) s = some (value :: is, r) := by
  simp [readItems, hvalue, hcomma, hrest]

theorem readItems_last {s r₁ r : List Char}
    (hvalue : readValue n s = some (value, r₁)) (hclose : skip r₁ = ']' :: r) :
    readItems (n + 1) s = some ([value], r) := by
  simp [readItems, hvalue, hclose]

theorem skip_append_cons (h : skip s = c :: r) (t : List Char) :
    skip (s ++ t) = c :: (r ++ t) := by
  rw [skip_append (by rw [h]; simp), h]
  rfl

theorem stable (n : Nat) : Stable n := by
  induction n with
  | zero =>
    refine ⟨fun h => ?_, fun h => ?_, fun h => ?_⟩ <;> cases h
  | succ n ih =>
    refine ⟨fun h hr t => readValue_append ih h hr t, ?_, ?_⟩
    · intro s r ms h t
      obtain ⟨s₀, key, r₁, r₂, value, r₃, rfl, hscan, hcolon, hvalue, hrest⟩ := readMembers_cases h
      have hne : skip r₂ ≠ [] := by
        intro hnil
        rw [hnil, readValue_nil] at hvalue
        cases hvalue
      have hscan' := scanString_append hscan t
      have hcolon' := skip_append_cons hcolon t
      rcases hrest with ⟨r₄, ms', hcomma, hmore, rfl⟩ | ⟨hclose, rfl⟩
      · have hvalue' := ih.1 hvalue (.inl (ends_of_skip hcomma (by decide))) t
        rw [← skip_append hne] at hvalue'
        have hne' : skip r₄ ≠ [] := by
          intro hnil
          rw [hnil, readMembers_nil] at hmore
          cases hmore
        have hmore' := ih.2.1 hmore t
        rw [← skip_append hne'] at hmore'
        exact readMembers_more hscan' hcolon' hvalue' (skip_append_cons hcomma t) hmore'
      · have hvalue' := ih.1 hvalue (.inl (ends_of_skip hclose (by decide))) t
        rw [← skip_append hne] at hvalue'
        exact readMembers_last hscan' hcolon' hvalue' (skip_append_cons hclose t)
    · intro s r is h t
      obtain ⟨value, r₁, hvalue, hrest⟩ := readItems_cases h
      rcases hrest with ⟨r₂, is', hcomma, hmore, rfl⟩ | ⟨hclose, rfl⟩
      · have hvalue' := ih.1 hvalue (.inl (ends_of_skip hcomma (by decide))) t
        have hne' : skip r₂ ≠ [] := by
          intro hnil
          rw [hnil, readItems_nil] at hmore
          cases hmore
        have hmore' := ih.2.2 hmore t
        rw [← skip_append hne'] at hmore'
        exact readItems_more hvalue' (skip_append_cons hcomma t) hmore'
      · have hvalue' := ih.1 hvalue (.inl (ends_of_skip hclose (by decide))) t
        exact readItems_last hvalue' (skip_append_cons hclose t)

/-! ## Section 4: Fuel -/

def Fueled (n : Nat) : Prop :=
  (∀ {s x}, readValue n s = some x → readValue (n + 1) s = some x) ∧
  (∀ {s x}, readMembers n s = some x → readMembers (n + 1) s = some x) ∧
  ∀ {s x}, readItems n s = some x → readItems (n + 1) s = some x

theorem fueled (n : Nat) : Fueled n := by
  induction n with
  | zero =>
    refine ⟨fun h => ?_, fun h => ?_, fun h => ?_⟩ <;> cases h
  | succ n ih =>
    refine ⟨?_, ?_, ?_⟩
    · intro s x h
      by_cases hquote : s.head? = some '\x22'
      · obtain ⟨s, rfl⟩ := cons_of_head? hquote
        simpa [readValue] using h
      by_cases hbrace : s.head? = some '\x7b'
      · obtain ⟨s, rfl⟩ := cons_of_head? hbrace
        by_cases hclose : (skip s).head? = some '\x7d'
        · obtain ⟨r', hr'⟩ := cons_of_head? hclose
          simpa [readValue, hr'] using h
        · rw [readValue_members hclose] at h ⊢
          obtain ⟨p, hread, rfl⟩ := map_eq_some_iff.mp h
          rw [ih.2.1 hread]
          rfl
      by_cases hbracket : s.head? = some '['
      · obtain ⟨s, rfl⟩ := cons_of_head? hbracket
        by_cases hclose : (skip s).head? = some ']'
        · obtain ⟨r', hr'⟩ := cons_of_head? hclose
          simpa [readValue, hr'] using h
        · rw [readValue_items hclose] at h ⊢
          obtain ⟨p, hread, rfl⟩ := map_eq_some_iff.mp h
          rw [ih.2.2 hread]
          rfl
      · rw [readValue_atom hquote hbrace hbracket] at h ⊢
        exact h
    · rintro s ⟨ms, r⟩ h
      obtain ⟨s₀, key, r₁, r₂, value, r₃, rfl, hscan, hcolon, hvalue, hrest⟩ := readMembers_cases h
      rcases hrest with ⟨r₄, ms', hcomma, hmore, rfl⟩ | ⟨hclose, rfl⟩
      · exact readMembers_more hscan hcolon (ih.1 hvalue) hcomma (ih.2.1 hmore)
      · exact readMembers_last hscan hcolon (ih.1 hvalue) hclose
    · rintro s ⟨is, r⟩ h
      obtain ⟨value, r₁, hvalue, hrest⟩ := readItems_cases h
      rcases hrest with ⟨r₂, is', hcomma, hmore, rfl⟩ | ⟨hclose, rfl⟩
      · exact readItems_more (ih.1 hvalue) hcomma (ih.2.2 hmore)
      · exact readItems_last (ih.1 hvalue) hclose

theorem readValue_fuel {n m : Nat} (hnm : n ≤ m) {x : Json × List Char}
    (h : readValue n s = some x) : readValue m s = some x := by
  induction m, hnm using Nat.le_induction with
  | base => exact h
  | succ m _ ih => exact (fueled m).1 ih

/-! ## Section 5: Texts of objects -/

theorem loads_eq_some (h : loads s = some v) :
    ∃ r, readValue (s.length + 1) (skip s) = some (v, r) ∧ skip r = [] := by
  unfold loads at h
  split at h
  · next value r hread =>
    split at h
    · next hskip =>
      cases h
      exact ⟨r, hread, hskip⟩
    · cases h
  · cases h

theorem loads_of_skip_nil (h : skip s = []) : loads s = none := by
  unfold loads
  rw [h, readValue_nil]

/-- A beginning of the text of an object that is a text itself has the same value. -/
theorem loads_of_isPrefix {a b : List Char} {v w : Json} (hobj : (skip a).head? = some '\x7b')
    (ha : loads a = some w) (h : loads (a ++ b) = some v) : w = v := by
  obtain ⟨r, hread, _⟩ := loads_eq_some ha
  obtain ⟨r', hread', _⟩ := loads_eq_some h
  have hne : skip a ≠ [] := by
    intro hnil
    rw [hnil] at hobj
    cases hobj
  have hmore := (stable _).1 hread (.inr (.inr (.inl hobj))) b
  rw [← skip_append hne] at hmore
  have hfuel := readValue_fuel (m := (a ++ b).length + 1) (by simp) hmore
  rw [hread'] at hfuel
  exact (Prod.mk.inj (Option.some.inj hfuel)).1.symm

theorem loads_blanks {b : List Char} (hobj : b.head? = some '\x7b') (h : loads b = some v)
    {w w' : List Char} (hw : ∀ c ∈ w, isBlank c = true) (hw' : ∀ c ∈ w', isBlank c = true) :
    loads (w ++ b ++ w') = some v := by
  obtain ⟨b, rfl⟩ := cons_of_head? hobj
  have hskip : ∀ t, skip (w ++ '\x7b' :: t) = '\x7b' :: t := by
    intro t
    unfold skip
    rw [dropWhile_append_of_pos hw]
    rfl
  obtain ⟨r, hread, hr⟩ := loads_eq_some h
  have hopen : skip ('\x7b' :: b) = '\x7b' :: b := rfl
  rw [hopen] at hread
  have hmore := (stable _).1 hread (.inr (.inr (.inl rfl))) w'
  have hfuel := readValue_fuel (m := (w ++ '\x7b' :: b ++ w').length + 1) (by simp; omega) hmore
  have hend : skip (r ++ w') = [] := by
    unfold skip at hr ⊢
    rw [dropWhile_eq_nil_iff] at hr ⊢
    intro c hc
    rcases mem_append.mp hc with hc | hc
    · exact hr c hc
    · exact hw' c hc
  unfold loads
  rw [append_assoc, cons_append, hskip]
  rw [append_assoc, cons_append] at hfuel
  simp only [hfuel, hend, if_true]

end Json

end Sglang.Lib
