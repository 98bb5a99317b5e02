import Sglang.Lib.JsonText

/-!
# Writing JSON

Strings as JSON texts, with or without the characters beyond ASCII, and objects whose keys and
values are texts already.

- `scanString_dumps`: a string is read back,
- `loads_object`: an object is read back.
-/

namespace Sglang.Lib.Json

open List Option

/-! ## Section 1: Strings -/

def hexDigit (n : Nat) : Char := ("0123456789abcdef".toList)[n]?.getD '0'

/-- A unit as `\uXXXX`. -/
def unicodeEscape (u : Nat) : List Char :=
  ['\x5c', 'u', hexDigit (u / 4096 % 16), hexDigit (u / 256 % 16), hexDigit (u / 16 % 16),
    hexDigit (u % 16)]

def shortEscape : Char → Option Char
  | '\x22' => some '\x22'
  | '\x5c' => some '\x5c'
  | '\n' => some 'n'
  | '\r' => some 'r'
  | '\t' => some 't'
  | '\x0c' => some 'f'
  | '\x08' => some 'b'
  | _ => none

/-- A character that is written as it is. -/
def isVerbatim (ensureAscii : Bool) (c : Char) : Bool := 32 ≤ c.toNat &&
    (!ensureAscii || c.toNat ≤ 126)

/-- The units of a character: two surrogates beyond the first plane. -/
def units (c : Char) : List Nat :=
  if c.toNat < 0x10000 then [c.toNat]
  else [0xD800 + (c.toNat - 0x10000) / 0x400, 0xDC00 + (c.toNat - 0x10000) % 0x400]

def dumpChar (ensureAscii : Bool) (c : Char) : List Char :=
  match shortEscape c with
  | some e => ['\x5c', e]
  | none => if isVerbatim ensureAscii c then [c] else (units c).flatMap unicodeEscape

/-- `json.dumps` of a string. -/
def dumpsString (ensureAscii : Bool) (s : List Char) : List Char :=
  '\x22' :: (s.flatMap (dumpChar ensureAscii) ++ ['\x22'])

theorem hexVal_hexDigit : ∀ d < 16, hexVal (hexDigit d) = some d := by decide

theorem scanString_unicodeEscape {u : Nat} (hu : u < 65536) (s : List Char) :
    scanString (unicodeEscape u ++ s) = (scanString s).map fun p => (u :: p.1, p.2) := by
  have hval : ((u / 4096 % 16 * 16 + u / 256 % 16) * 16 + u / 16 % 16) * 16 + u % 16 = u := by omega
  have hhex : hex4 (hexDigit (u / 4096 % 16)) (hexDigit (u / 256 % 16)) (hexDigit (u / 16 % 16))
      (hexDigit (u % 16)) = some u := by
    have hdigit : ∀ n : Nat, hexVal (hexDigit (n % 16)) = some (n % 16) :=
      fun n => hexVal_hexDigit _ (Nat.mod_lt _ (by decide))
    simp only [hex4, hdigit, bind_eq_bind, bind_some, hval]
  simp only [unicodeEscape, cons_append, nil_append, scanString, hhex,
    bind_eq_bind, bind_some]
  cases scanString s <;> rfl

theorem scanString_units {us : List Nat} (hus : ∀ u ∈ us, u < 65536) (s : List Char) :
    scanString (us.flatMap unicodeEscape ++ s) = (scanString s).map fun p => (us ++ p.1, p.2) := by
  induction us with
  | nil => simp
  | cons u us ih =>
    rw [flatMap_cons, append_assoc, scanString_unicodeEscape (hus u (mem_cons_self ..)),
      ih fun v hv => hus v (mem_cons_of_mem _ hv), Option.map_map]
    rfl

variable (c : Char) (ensureAscii : Bool)

theorem toNat_lt : c.toNat < 0x110000 := by
  rcases c.valid with h | ⟨_, h⟩
  · exact lt_trans h (by decide)
  · exact h

theorem units_lt : ∀ u ∈ units c, u < 65536 := by
  have hlt := toNat_lt c
  intro u hu
  unfold units at hu
  split at hu
  · simp at hu
    omega
  · simp at hu
    omega

theorem shortEscape_cases {c e : Char} (h : shortEscape c = some e) :
    e ≠ 'u' ∧ escape e = some c.toNat ∧ c.toNat < 0x10000 := by
  unfold shortEscape at h
  split at h
  all_goals cases h
  all_goals exact ⟨by decide, by decide, by decide⟩

/-- The units that a written character is read as. -/
def readUnits (ensureAscii : Bool) (c : Char) : List Nat :=
  if isVerbatim ensureAscii c then [c.toNat] else units c

theorem scanString_dumpChar (c : Char) (s : List Char) :
    scanString (dumpChar ensureAscii c ++ s) =
      (scanString s).map fun p => (readUnits ensureAscii c ++ p.1, p.2) := by
  unfold dumpChar
  cases hshort : shortEscape c with
  | some e =>
    obtain ⟨hne, hescape, hlt⟩ := shortEscape_cases hshort
    have hunits : readUnits ensureAscii c = [c.toNat] := by
      unfold readUnits units
      rw [if_pos hlt, ite_self]
    rw [hunits]
    simp only [cons_append, nil_append]
    rw [scanString]
    · simp only [hescape, bind_eq_bind, bind_some]
      cases scanString s <;> rfl
    · intro a b d f r heq
      exact absurd heq hne
  | none =>
    dsimp only
    by_cases hverb : isVerbatim ensureAscii c = true
    · have hquote : c ≠ '\x22' := by
        rintro rfl
        cases hshort
      have hslash : c ≠ '\x5c' := by
        rintro rfl
        cases hshort
      have hcontrol : ¬ c.toNat < 32 := by
        simp only [isVerbatim, Bool.and_eq_true, decide_eq_true_eq] at hverb
        omega
      rw [if_pos hverb, readUnits, if_pos hverb, cons_append, nil_append,
        scanString_plain hquote hslash hcontrol]
      rfl
    · rw [if_neg hverb, readUnits, if_neg hverb]
      exact scanString_units (units_lt c) s

theorem scanString_flatMap (s r : List Char) :
    scanString (s.flatMap (dumpChar ensureAscii) ++ '\x22' :: r) =
      some (s.flatMap (readUnits ensureAscii), r) := by
  induction s with
  | nil => rfl
  | cons c s ih =>
    rw [flatMap_cons, append_assoc, scanString_dumpChar, ih]
    rfl

theorem isHigh_toNat : isHigh c.toNat = false := by
  rcases c.valid with h | ⟨h, _⟩
  · simp only [isHigh, Bool.and_eq_false_iff, decide_eq_false_iff_not]
    left
    exact Nat.not_le.mpr h
  · simp only [isHigh, Bool.and_eq_false_iff, decide_eq_false_iff_not]
    right
    have : 0xDFFF < c.toNat := h
    omega

theorem combine_cons {u : Nat} (h : isHigh u = false) (us : List Nat) :
    combine (u :: us) = u :: combine us := by
  cases us with
  | nil => rfl
  | cons v us =>
    rw [combine, h]
    rfl

theorem combine_readUnits (c : Char) (us : List Nat) :
    combine (readUnits ensureAscii c ++ us) = c.toNat :: combine us := by
  unfold readUnits
  split
  · exact combine_cons (isHigh_toNat c) us
  · unfold units
    split
    · exact combine_cons (isHigh_toNat c) us
    · next h =>
      have hlt := toNat_lt c
      have hhigh : isHigh (0xD800 + (c.toNat - 0x10000) / 0x400) = true := by
        simp only [isHigh, Bool.and_eq_true, decide_eq_true_eq]
        omega
      have hlow : isLow (0xDC00 + (c.toNat - 0x10000) % 0x400) = true := by
        simp only [isLow, Bool.and_eq_true, decide_eq_true_eq]
        omega
      rw [cons_append, cons_append, nil_append, combine, hhigh, hlow]
      simp only [Bool.and_self, if_true, List.cons.injEq, and_true]
      omega

theorem combine_flatMap (s : List Char) :
    combine (s.flatMap (readUnits ensureAscii)) = codes s := by
  induction s with
  | nil => rfl
  | cons c s ih =>
    rw [flatMap_cons, combine_readUnits, ih]
    rfl

theorem scanString_dumps (s r : List Char) :
    ∃ key, scanString (s.flatMap (dumpChar ensureAscii) ++ '\x22' :: r) = some (key, r) ∧
      combine key = codes s :=
  ⟨_, scanString_flatMap ensureAscii s r, combine_flatMap ensureAscii s⟩

theorem loads_dumpsString (s : List Char) :
    loads (dumpsString ensureAscii s) = some (.str (codes s)) := by
  obtain ⟨key, hscan, hkey⟩ := scanString_dumps ensureAscii s []
  have hskip : skip (dumpsString ensureAscii s) = dumpsString ensureAscii s := rfl
  unfold loads
  rw [hskip]
  simp only [dumpsString, readValue, hscan, map_some, hkey]
  rfl

/-! ## Section 2: Objects -/

/-- An atom at the end of a text is the same with more text that is in no number. -/
theorem scanAtom_append_end {s r : List Char} {v : Json} (h : scanAtom s = some (v, []))
    (hr : Ends r) : scanAtom (s ++ r) = some (v, r) := by
  have hfind : (keywords.find? fun k => decide (k.1 <+: s ++ r)) =
      keywords.find? fun k => decide (k.1 <+: s) := by
    apply find?_congr
    intro k hk
    have := keyword_append (by rw [h]; rfl) r k.1 (List.mem_map.mpr ⟨k, hk, rfl⟩)
    exact decide_eq_decide.mpr this
  unfold scanAtom at h ⊢
  rw [hfind]
  cases hk : keywords.find? fun k => decide (k.1 <+: s) with
  | some k =>
    rw [hk] at h
    simp only [Option.some.injEq, Prod.mk.injEq] at h
    have hpre : k.1 <+: s := by simpa using find?_some hk
    dsimp only
    rw [drop_append_of_le_length hpre.length_le, h.1, h.2]
    rfl
  | none =>
    rw [hk] at h
    dsimp only at h ⊢
    obtain ⟨c, r', rfl, hc⟩ := hr
    split at h
    · next hnumber =>
      simp only [Option.some.injEq, Prod.mk.injEq] at h
      have hall : ∀ d ∈ s, isNumberChar d = true := dropWhile_eq_nil_iff.mp h.2
      rw [takeWhile_append_of_pos hall, dropWhile_append_of_pos hall,
        takeWhile_cons_of_neg (by simp [hc]), dropWhile_cons_of_neg (by simp [hc]),
        append_nil]
      rw [takeWhile_eq_self_iff.mpr hall] at hnumber h
      rw [if_pos hnumber, h.1]
    · cases h

theorem readValue_of_loads {t r : List Char} {v : Json} (h : loads t = some v) (hr : Ends r)
    {n : Nat} (hn : t.length + 1 ≤ n) :
    ∃ w, skip w = [] ∧ readValue n (skip (t ++ r)) = some (v, w ++ r) := by
  obtain ⟨w, hread, hw⟩ := loads_eq_some h
  have hne : skip t ≠ [] := by
    intro hnil
    rw [hnil, readValue_nil] at hread
    cases hread
  refine ⟨w, hw, readValue_fuel hn ?_⟩
  rw [skip_append hne]
  by_cases hends : Ends w ∨ (skip t).head? = some '\x22' ∨ (skip t).head? = some '\x7b' ∨
      (skip t).head? = some '['
  · exact (stable _).1 hread hends r
  · simp only [not_or] at hends
    obtain ⟨hends, hquote, hbrace, hbracket⟩ := hends
    -- only a number at the end is left
    have hnil : w = [] := by
      cases w with
      | nil => rfl
      | cons c w =>
        refine absurd ⟨c, w, rfl, ?_⟩ hends
        have hblank : isBlank c = true := dropWhile_eq_nil_iff.mp hw c (mem_cons_self ..)
        simp only [isBlank, Bool.or_eq_true, decide_eq_true_eq] at hblank
        rcases hblank with ((rfl | rfl) | rfl) | rfl <;> decide
    subst hnil
    have hhead := head?_append_of_ne_nil hne r
    rw [readValue_atom hquote hbrace hbracket] at hread
    rw [readValue_atom (hhead ▸ hquote) (hhead ▸ hbrace) (hhead ▸ hbracket)]
    exact scanAtom_append_end hread hr

/-- A member of an object: its key, the text of its value, and what they are read as. -/
structure Member where
  ensureAscii : Bool
  key : List Char
  text : List Char
  value : Json
  text_loads : loads text = some value

def Member.render (m : Member) : List Char :=
  dumpsString m.ensureAscii m.key ++ ": ".toList ++ m.text

def Member.read (m : Member) : List Nat × Json := (codes m.key, m.value)

/-- The members of an object after its opening brace, to the closing one. -/
def membersText : List (List Char) → List Char
  | [] => ['\x7d']
  | [m] => m ++ ['\x7d']
  | m :: ms => m ++ ", ".toList ++ membersText ms

theorem skip_blanks {w : List Char} (hw : skip w = []) (s : List Char) : skip
    (w ++ s) = skip s := by
  unfold skip at hw ⊢
  exact dropWhile_append_of_pos (dropWhile_eq_nil_iff.mp hw)

theorem readMembers_membersText (m : Member) (ms : List Member) : ∀ {n : Nat},
    (membersText ((m :: ms).map Member.render)).length ≤ n →
    readMembers n (membersText ((m :: ms).map Member.render)) = some
    ((m :: ms).map Member.read, []) := by
  induction ms generalizing m with
  | nil =>
    intro n hn
    obtain ⟨key, hscan, hkey⟩ :=
      scanString_dumps m.ensureAscii m.key (": ".toList ++ m.text ++ ['\x7d'])
    have htext : membersText ([m].map Member.render) =
      '\x22' :: (m.key.flatMap (dumpChar m.ensureAscii) ++
        '\x22' :: (": ".toList ++ m.text ++ ['\x7d'])) := by
      simp [membersText, Member.render, dumpsString]
    rw [htext] at hn ⊢
    obtain ⟨n, rfl⟩ : ∃ k, n = k + 1 := ⟨n - 1, by simp at hn; omega⟩
    obtain ⟨w, hw, hvalue⟩ := @readValue_of_loads m.text ['\x7d'] m.value m.text_loads
      ⟨'\x7d', [], rfl, by decide⟩ n (by simp at hn; omega)
    have hcolon :
        skip (": ".toList ++ m.text ++ ['\x7d']) = ':' :: (' ' :: (m.text ++ ['\x7d'])) := rfl
    rw [readMembers_last hscan hcolon hvalue (by rw [skip_blanks hw]; rfl), hkey]
    rfl
  | cons m' ms ih =>
    intro n hn
    obtain ⟨key, hscan, hkey⟩ := scanString_dumps m.ensureAscii m.key
      (": ".toList ++ m.text ++ (", ".toList ++ membersText ((m' :: ms).map Member.render)))
    have htext : membersText ((m :: m' :: ms).map Member.render) =
      '\x22' :: (m.key.flatMap (dumpChar m.ensureAscii) ++
        '\x22' :: (": ".toList ++ m.text ++
          (", ".toList ++ membersText ((m' :: ms).map Member.render)))) := by
      simp [membersText, Member.render, dumpsString]
    rw [htext] at hn ⊢
    obtain ⟨n, rfl⟩ : ∃ k, n = k + 1 := ⟨n - 1, by simp at hn; omega⟩
    obtain ⟨w, hw, hvalue⟩ := @readValue_of_loads m.text
      (", ".toList ++ membersText ((m' :: ms).map Member.render)) m.value
      m.text_loads ⟨',', _, rfl, by decide⟩ n (by simp at hn; omega)
    have hrest : skip (' ' :: membersText ((m' :: ms).map Member.render)) =
        membersText ((m' :: ms).map Member.render) := by
      cases ms <;> rfl
    have hcolon : skip (": ".toList ++ m.text ++
          (", ".toList ++ membersText ((m' :: ms).map Member.render))) =
        ':' :: (' ' :: (m.text ++
          (", ".toList ++ membersText ((m' :: ms).map Member.render)))) := rfl
    have hcomma : skip (w ++ (", ".toList ++ membersText ((m' :: ms).map Member.render))) =
        ',' :: (' ' :: membersText ((m' :: ms).map Member.render)) := by
      rw [skip_blanks hw]
      rfl
    have hmore := @ih m' n (by simp at hn ⊢; omega)
    rw [← hrest] at hmore
    rw [readMembers_more hscan hcolon hvalue hcomma hmore, hkey]
    rfl

theorem loads_object (ms : List Member) :
    loads ('\x7b' :: membersText (ms.map Member.render)) = some (.obj (ms.map Member.read)) := by
  have hskip : skip ('\x7b' :: membersText (ms.map Member.render)) =
    '\x7b' :: membersText (ms.map Member.render) := rfl
  unfold loads
  rw [hskip]
  cases ms with
  | nil => rfl
  | cons m ms =>
    have hopen : skip (membersText ((m :: ms).map Member.render)) =
      membersText ((m :: ms).map Member.render) := by cases ms <;> rfl
    have hhead : (skip (membersText ((m :: ms).map Member.render))).head? ≠ some '\x7d' := by
      rw [hopen]
      cases ms <;> simp [membersText, Member.render, dumpsString]
    rw [readValue_members hhead, hopen, readMembers_membersText m ms (by simp)]
    rfl

end Sglang.Lib.Json
