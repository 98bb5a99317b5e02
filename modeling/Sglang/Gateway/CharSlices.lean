import Sglang.Lib.CommonPrefix

/-!
# Slices of UTF-8 Text

The character arithmetic of the gateway's tree (`policies/tree.rs`): `advance_by_chars`,
`take_chars`, `shared_prefix_count` and `NodeText`. They look at bytes first and count characters
only when they must.

A `str` is the list of its characters; `bytes` is its encoding. A slice at a byte index that is not
the start of a character panics, which is `none` here.
-/

namespace Sglang.Gateway

open List
open Lib

/-! ## Section 1: Bytes -/

/-- `s.as_bytes()`. -/
def bytes (s : List Char) : List UInt8 := s.flatMap String.utf8EncodeChar

def isAscii (bs : List UInt8) : Bool := bs.all (· < 128)

/-- `&s[n..]`. -/
def sliceFrom : List Char → Nat → Option (List Char)
  | s, 0 => some s
  | [], _ + 1 => none
  | c :: s, n + 1 => if c.utf8Size ≤ n + 1 then sliceFrom s (n + 1 - c.utf8Size) else none

/-- `&s[..n]`. -/
def sliceTo : List Char → Nat → Option (List Char)
  | _, 0 => some []
  | [], _ + 1 => none
  | c :: s, n + 1 =>
    if c.utf8Size ≤ n + 1 then (sliceTo s (n + 1 - c.utf8Size)).map (c :: ·) else none

/-- The byte index in `s.char_indices().nth(n)`. -/
def charIndex (s : List Char) (n : Nat) : Option Nat :=
  if n < s.length then some (bytes (s.take n)).length else none

@[simp] theorem bytes_nil : bytes [] = [] := rfl

@[simp] theorem bytes_cons (c : Char) (s : List Char) :
    bytes (c :: s) = String.utf8EncodeChar c ++ bytes s := rfl

theorem utf8EncodeChar_cases (c : Char) :
    (∃ b, String.utf8EncodeChar c = [b] ∧ b < 128 ∧ c.utf8Size = 1) ∨
      ∃ b bs, String.utf8EncodeChar c = b :: bs ∧ ¬ b < 128 := by
  have hsize := String.length_utf8EncodeChar c
  have hlt : ∀ {v : Nat}, v < 256 → ((UInt8.ofNat v < 128) ↔ v < 128) := by
    intro v hv
    rw [UInt8.lt_iff_toNat_lt, UInt8.toNat_ofNat', Nat.mod_eq_of_lt hv]
    rfl
  unfold String.utf8EncodeChar at hsize ⊢
  dsimp only at hsize ⊢
  split at hsize
  · next h =>
    left
    rw [if_pos h]
    exact ⟨_, rfl, (hlt (by omega)).mpr (by omega), by simpa using hsize.symm⟩
  · next h =>
    right
    rw [if_neg h]
    split
    · exact ⟨_, _, rfl, by rw [hlt (by omega)]; omega⟩
    · split
      · exact ⟨_, _, rfl, by rw [hlt (by omega)]; omega⟩
      · exact ⟨_, _, rfl, by rw [hlt (by omega)]; omega⟩

theorem utf8EncodeChar_ne_nil (c : Char) : String.utf8EncodeChar c ≠ [] := by
  rcases utf8EncodeChar_cases c with ⟨b, h, _⟩ | ⟨b, bs, h, _⟩
  · simp [h]
  · simp [h]

theorem utf8EncodeChar_inj {c d : Char} (h : String.utf8EncodeChar c = String.utf8EncodeChar d) :
    c = d := by
  have hc := @ByteArray.utf8DecodeChar?_utf8EncodeChar_append ByteArray.empty c
  have hd := @ByteArray.utf8DecodeChar?_utf8EncodeChar_append ByteArray.empty d
  rw [h, hd] at hc
  exact (Option.some.inj hc).symm

variable (s a b : List Char)

theorem length_le_bytes : s.length ≤ (bytes s).length := by
  induction s with
  | nil => rfl
  | cons c s ih =>
    have hpos := length_pos_of_ne_nil (utf8EncodeChar_ne_nil c)
    rw [bytes_cons, length_append, length_cons]
    omega

/-! ## Section 2: Slices are lists of characters -/

theorem sliceFrom_charIndex : ∀ n, n ≤ s.length →
    sliceFrom s (bytes (s.take n)).length = some (s.drop n) := by
  induction s with
  | nil =>
    intro n hn
    obtain rfl : n = 0 := by simpa using hn
    rfl
  | cons c s ih =>
    intro n hn
    cases n with
    | zero => rfl
    | succ n =>
      have hsize := String.length_utf8EncodeChar c
      have hpos := length_pos_of_ne_nil (utf8EncodeChar_ne_nil c)
      rw [take_succ_cons, bytes_cons, length_append, hsize, drop_succ_cons]
      obtain ⟨k, hk⟩ : ∃ k, c.utf8Size + (bytes (s.take n)).length = k + 1 :=
        ⟨c.utf8Size + (bytes (s.take n)).length - 1, by omega⟩
      rw [hk, sliceFrom, if_pos (by omega), ← hk, Nat.add_sub_cancel_left]
      exact ih n (by simpa using hn)

theorem sliceTo_charIndex : ∀ n, n ≤ s.length →
    sliceTo s (bytes (s.take n)).length = some (s.take n) := by
  induction s with
  | nil =>
    intro n hn
    obtain rfl : n = 0 := by simpa using hn
    rfl
  | cons c s ih =>
    intro n hn
    cases n with
    | zero => rfl
    | succ n =>
      have hsize := String.length_utf8EncodeChar c
      have hpos := length_pos_of_ne_nil (utf8EncodeChar_ne_nil c)
      rw [take_succ_cons, bytes_cons, length_append, hsize]
      obtain ⟨k, hk⟩ : ∃ k, c.utf8Size + (bytes (s.take n)).length = k + 1 :=
        ⟨c.utf8Size + (bytes (s.take n)).length - 1, by omega⟩
      rw [hk, sliceTo, if_pos (by omega), ← hk, Nat.add_sub_cancel_left, ih n (by simpa using hn)]
      rfl

theorem bytes_take_of_isAscii : ∀ n, n ≤ (bytes s).length →
    isAscii ((bytes s).take n) = true → n ≤ s.length ∧ (bytes (s.take n)).length = n := by
  induction s with
  | nil =>
    intro n hn _
    obtain rfl : n = 0 := by simpa using hn
    exact ⟨le_rfl, rfl⟩
  | cons c s ih =>
    intro n hn hascii
    cases n with
    | zero => exact ⟨Nat.zero_le _, rfl⟩
    | succ n =>
      rcases utf8EncodeChar_cases c with ⟨b, hb, _, _⟩ | ⟨b, bs, hb, hnot⟩
      · rw [bytes_cons, hb, singleton_append, take_succ_cons] at hascii
        rw [bytes_cons, hb, singleton_append, length_cons] at hn
        have hrest : isAscii ((bytes s).take n) = true := by
          simp only [isAscii, all_cons, Bool.and_eq_true] at hascii
          exact hascii.2
        obtain ⟨hle, hlen⟩ := ih n (by omega) hrest
        refine ⟨by simpa using hle, ?_⟩
        rw [take_succ_cons, bytes_cons, hb, singleton_append, length_cons, hlen]
      · rw [bytes_cons, hb, cons_append, take_succ_cons] at hascii
        simp only [isAscii, all_cons, Bool.and_eq_true, decide_eq_true_eq] at hascii
        exact absurd hascii.1 hnot

def advanceByChars (s : List Char) (n : Nat) : Option (List Char) :=
  if n = 0 then some s
  else if n ≥ (bytes s).length then some []
  else if isAscii ((bytes s).take n) then sliceFrom s n
  else
    match charIndex s n with
    | some idx => sliceFrom s idx
    | none => some []

theorem advanceByChars_eq (n : Nat) : advanceByChars s n = some (s.drop n) := by
  unfold advanceByChars
  split
  · next h => simp [h]
  split
  · next h =>
    have hlen := length_le_bytes s
    rw [drop_of_length_le (by omega)]
  split
  · next hlt hascii =>
    obtain ⟨hle, hlen⟩ := bytes_take_of_isAscii s n (by omega) hascii
    have hslice := sliceFrom_charIndex s n hle
    rwa [hlen] at hslice
  · unfold charIndex
    split
    · next idx hidx =>
      split at hidx
      · cases hidx
        exact sliceFrom_charIndex s n (by omega)
      · cases hidx
    · next hidx =>
      split at hidx
      · cases hidx
      · rw [drop_of_length_le (by omega)]

def takeChars (s : List Char) (n : Nat) : Option (List Char) :=
  if n = 0 then some []
  else
    match charIndex s n with
    | some idx => sliceTo s idx
    | none => some s

theorem takeChars_eq (n : Nat) : takeChars s n = some (s.take n) := by
  unfold takeChars charIndex
  split
  · next h => simp [h]
  · split
    · next idx hidx =>
      split at hidx
      · cases hidx
        exact sliceTo_charIndex s n (by omega)
      · cases hidx
    · next hidx =>
      split at hidx
      · cases hidx
      · rw [take_of_length_le (by omega)]

/-! ## Section 3: Shared prefixes -/

def sharedPrefixCountChars (a b : List Char) : Nat :=
  ((a.zip b).takeWhile fun p => p.1 == p.2).length

/-- The common byte prefix that `shared_prefix_count` starts with. -/
def commonByteLen (a b : List UInt8) : Nat :=
  ((a.zip b).findIdx? fun p => p.1 != p.2).getD (min a.length b.length)

def sharedPrefixCount (a b : List Char) : Nat :=
  let k := commonByteLen (bytes a) (bytes b)
  if isAscii ((bytes a).take k) then k else sharedPrefixCountChars a b

theorem sharedPrefixCountChars_eq : sharedPrefixCountChars a b = lcp a b := by
  unfold sharedPrefixCountChars
  induction a generalizing b with
  | nil => simp [lcp]
  | cons c a ih =>
    cases b with
    | nil => simp [lcp]
    | cons d b =>
      by_cases h : c = d
      · simp [lcp, h, ih]
      · simp [lcp, h]

theorem commonByteLen_eq (a b : List UInt8) : commonByteLen a b = lcp a b := by
  unfold commonByteLen
  induction a generalizing b with
  | nil => simp [lcp]
  | cons x a ih =>
    cases b with
    | nil => simp [lcp]
    | cons y b =>
      by_cases h : x = y
      · subst h
        rw [zip_cons_cons, findIdx?_cons]
        have hrest := ih b
        cases hfind : (a.zip b).findIdx? fun p => p.1 != p.2 with
        | none =>
          rw [hfind] at hrest
          simp [lcp, ← hrest]
        | some i =>
          rw [hfind] at hrest
          simp [lcp, ← hrest]
      · simp [lcp, h, findIdx?_cons]

/-- An ASCII common prefix of the bytes is one of the characters. -/
theorem lcp_bytes_of_isAscii
    (h : isAscii ((bytes a).take (lcp (bytes a) (bytes b))) = true) :
    lcp (bytes a) (bytes b) = lcp a b := by
  induction a generalizing b with
  | nil => simp [lcp]
  | cons c a ih =>
    cases b with
    | nil => cases hbytes : bytes (c :: a) <;> simp [lcp]
    | cons d b =>
      rcases utf8EncodeChar_cases c with ⟨x, hx, hxlt, _⟩ | ⟨x, xs, hx, hxge⟩
      · rcases utf8EncodeChar_cases d with ⟨y, hy, _, _⟩ | ⟨y, ys, hy, hyge⟩
        · simp only [bytes_cons, hx, hy, singleton_append] at h ⊢
          by_cases hxy : x = y
          · have hcd : c = d := utf8EncodeChar_inj (by rw [hx, hy, hxy])
            subst hxy
            subst hcd
            simp only [lcp, if_true, take_succ_cons, isAscii, all_cons, Bool.and_eq_true,
              Nat.add_right_cancel_iff] at h ⊢
            exact ih b h.2
          · have hcd : c ≠ d := by
              rintro rfl
              rw [hx] at hy
              exact hxy (List.cons.inj hy).1
            simp [lcp, hxy, hcd]
        · have hxy : x ≠ y := by
            rintro rfl
            exact hyge hxlt
          have hcd : c ≠ d := by
            rintro rfl
            rw [hx] at hy
            exact hxy (List.cons.inj hy).1
          simp [bytes_cons, hx, hy, lcp, hxy, hcd]
      · -- the first byte is not ASCII, so nothing is shared
        obtain ⟨y, ys, hy⟩ := exists_cons_of_ne_nil (utf8EncodeChar_ne_nil d)
        simp only [bytes_cons, hx, hy, cons_append] at h ⊢
        by_cases hxy : x = y
        · subst hxy
          simp only [lcp, if_true, take_succ_cons, isAscii, all_cons, Bool.and_eq_true,
            decide_eq_true_eq] at h
          exact absurd h.1 hxge
        · have hcd : c ≠ d := by
            rintro rfl
            rw [hx] at hy
            exact hxy (List.cons.inj hy).1
          simp [lcp, hxy, hcd]

theorem sharedPrefixCount_eq : sharedPrefixCount a b = lcp a b := by
  unfold sharedPrefixCount
  dsimp only
  rw [commonByteLen_eq, sharedPrefixCountChars_eq]
  split
  · next h => exact lcp_bytes_of_isAscii a b h
  · rfl

/-! ## Section 4: Node texts -/

/-- `NodeText`: a text with its number of characters. -/
structure NodeText where
  text : List Char
  charCount : Nat
  count_eq : charCount = text.length

def NodeText.new (text : List Char) : NodeText := ⟨text, text.length, rfl⟩

def NodeText.empty : NodeText := ⟨[], 0, rfl⟩

def NodeText.firstChar (t : NodeText) : Option Char := t.text.head?

def NodeText.splitAtChar (t : NodeText) (charIdx : Nat) : NodeText × NodeText :=
  if charIdx = 0 then (.empty, t)
  else if h : charIdx ≥ t.charCount then (t, .empty)
  else
    (⟨t.text.take charIdx, charIdx, by
        rw [length_take, ← t.count_eq]
        omega⟩,
      ⟨t.text.drop charIdx, t.charCount - charIdx, by rw [length_drop, t.count_eq]⟩)

end Sglang.Gateway
