import Mathlib.Order.Bounds.Basic
import Sglang.Lib.CommonPrefix

/-!
# Radix Keys

Model of `RadixKey` (`mem_cache/radix_cache.py`): a token sequence with an optional namespace
tag (`extra_key`), an optional bigram view for EAGLE and an optional cap on the raw tokens.

The class never materialises its logical units. Slicing, matching and child lookup all work
on the raw tokens, so the module relates each of them to `RadixKey.units`, the sequence that
`__iter__` yields:

- `units_slice`: slicing a key slices its units (bigram slices share one boundary token),
- `matchLen_eq`: the galloping/bisecting `match` is the page-rounded common prefix of the units,
- `match_scansTo`: it is the scan of the units, also of a key that is cut at a page boundary,
- `letters`: units tagged with the namespace, the alphabet over which the trees are radix trees.
-/

namespace Sglang.MemCache

open List
open Lib

/-! ## Section 1: The data type -/

/-- One logical unit of a key: a token, or two consecutive tokens in bigram mode. -/
inductive KeyUnit where
  | token (t : Int)
  | bigram (a b : Int)
deriving DecidableEq, Repr

/-- `RadixKey`: raw tokens, namespace, bigram flag, and the optional cap on raw tokens. -/
structure RadixKey where
  tokenIds : List Int
  extraKey : Option String := none
  isBigram : Bool := false
  limit : Option Nat := none
deriving DecidableEq, Repr

/-- Python's `xs[a:b]` for non-negative bounds. -/
def pySlice {α : Type} (xs : List α) (a b : Nat) : List α := (xs.take b).drop a

/-- Overlapping pairs of a token sequence. -/
def bigrams (t : List Int) : List KeyUnit := List.zipWith KeyUnit.bigram t (t.drop 1)

namespace RadixKey

def rawLen (k : RadixKey) : Nat :=
  let n := k.tokenIds.length
  match k.limit with
  | some l => if l < n then l else n
  | none => n

/-- `raw_token_ids`: the tokens honouring `limit`. -/
def rawTokenIds (k : RadixKey) : List Int := k.tokenIds.take k.rawLen

/-- `__len__`: the number of logical units. -/
def len (k : RadixKey) : Nat :=
  let n := k.rawLen
  if k.isBigram then (if n > 0 then n - 1 else 0) else n

/-- `__iter__`: the logical units. -/
def units (k : RadixKey) : List KeyUnit :=
  if k.isBigram then bigrams k.rawTokenIds else k.rawTokenIds.map KeyUnit.token

/-- `__getitem__` on a slice with step one; the bounds are clipped to `len(self)`. -/
def slice (k : RadixKey) (start stop : Nat) : RadixKey :=
  let start := min start k.len
  let stop := min stop k.len
  if k.isBigram then
    -- bigrams [start, stop) span raw tokens [start, stop + 1)
    { tokenIds := if stop > start then pySlice k.tokenIds start (stop + 1) else []
      extraKey := k.extraKey
      isBigram := true }
  else
    { tokenIds := pySlice k.tokenIds start stop, extraKey := k.extraKey }

/-- `self[:n]`. -/
def takeUnits (k : RadixKey) (n : Nat) : RadixKey := k.slice 0 n

/-- `self[n:]`. -/
def dropUnits (k : RadixKey) (n : Nat) : RadixKey := k.slice n k.len

def pageAligned (k : RadixKey) (pageSize : Nat) : RadixKey :=
  if pageSize = 1 then k else k.takeUnits (k.len / pageSize * pageSize)

/-- `maybe_to_bigram_view` on the key. -/
def maybeToBigramView (k : RadixKey) (isEagle : Bool) : RadixKey :=
  if isEagle && !k.isBigram then { k with isBigram := true } else k

/-- `maybe_to_bigram_view` on the value paired with the key: truncated to the bigram count
exactly when the flag is flipped. -/
def bigramValue {α : Type} (k : RadixKey) (isEagle : Bool) (value : List α) : List α :=
  if isEagle && !k.isBigram then value.take (k.maybeToBigramView isEagle).len else value

/-! ## Section 2: The galloping match -/

/-- Inner loop of `match`: the window `[lo, hi)` holds the first difference. -/
def bisect (t0 t1 : List Int) : Nat → Nat → Nat → Nat
  | 0, lo, _ => lo
  | fuel + 1, lo, hi =>
    if hi - lo > 1 then
      let mid := (lo + hi) / 2
      if pySlice t0 lo mid = pySlice t1 lo mid then bisect t0 t1 fuel mid hi
      else bisect t0 t1 fuel lo mid
    else lo

/-- Outer loop of `match`: compare windows of doubling width until one differs. -/
def gallop (t0 t1 : List Int) (n : Nat) : Nat → Nat → Nat → Nat
  | 0, lo, _ => lo
  | fuel + 1, lo, step =>
    if lo < n then
      let hi := if lo + step < n then lo + step else n
      if pySlice t0 lo hi ≠ pySlice t1 lo hi then bisect t0 t1 (hi - lo) lo hi
      else gallop t0 t1 n fuel hi (step * 2)
    else n

/-- `matched_tokens` as `match` computes it; `n` iterations always suffice. -/
def matchedTokens (t0 t1 : List Int) : Nat :=
  let n := min t0.length t1.length
  gallop t0 t1 n (n + 1) 0 1

/-- `match` after its compatibility check. -/
def matchLen (k other : RadixKey) (pageSize : Nat) : Nat :=
  let matched := matchedTokens k.tokenIds other.tokenIds
  if k.isBigram then
    let matched := min (matched - 1) (min k.len other.len)
    if pageSize > 1 then matched / pageSize * pageSize else matched
  else
    let matched := min matched (min k.len other.len)
    if pageSize = 1 then matched else matched / pageSize * pageSize

/-- `match`; `none` is the `ValueError` of `_check_compatible`. -/
def «match» (k other : RadixKey) (pageSize : Nat) : Option Nat :=
  if k.extraKey ≠ other.extraKey then none else some (k.matchLen other pageSize)

/-- The value of `child_key`: the namespace and the first page of units. -/
structure ChildKey where
  extraKey : Option String
  plain : List KeyUnit
deriving DecidableEq, Repr

/-- `child_key`, read off the raw tokens as the source does. -/
def childKey (k : RadixKey) (pageSize : Nat) : ChildKey where
  extraKey := k.extraKey
  plain :=
    if k.isBigram then bigrams (k.tokenIds.take (pageSize + 1))
    else (k.tokenIds.take pageSize).map KeyUnit.token

end RadixKey

/-! ## Section 3: Slices of units -/

theorem pySlice_take {α : Type} (l : List α) (n a b : Nat) :
    pySlice (l.take n) a b = pySlice l (min a n) (min b n) := by
  simp only [pySlice, take_take]
  rcases Nat.le_total a n with han | hna
  · rw [min_eq_left han]
  · rw [min_eq_right hna]
    have hshort : (l.take (min b n)).length ≤ n := by simp
    rw [drop_eq_nil_of_le hshort, drop_eq_nil_of_le (hshort.trans hna)]

theorem pySlice_eq_nil {α : Type} (l : List α) {a b : Nat} (h : b ≤ a) : pySlice l a b = [] :=
  drop_eq_nil_of_le (by simp; omega)

@[simp] theorem bigrams_length (t : List Int) : (bigrams t).length = t.length - 1 := by
  simp [bigrams]

@[simp] theorem bigrams_nil : bigrams [] = [] := rfl

theorem bigrams_pySlice (t : List Int) {a b : Nat} (hab : a < b) :
    bigrams (pySlice t a (b + 1)) = pySlice (bigrams t) a b := by
  apply ext_getElem
  · simp [pySlice, bigrams]; omega
  · intro i h₁ h₂
    simp [bigrams, pySlice, Nat.add_comm 1 i, Nat.add_assoc]

theorem bigrams_take (t : List Int) (n : Nat) : bigrams (t.take n) = (bigrams t).take (n - 1) := by
  apply ext_getElem?
  intro i
  simp only [bigrams, getElem?_zipWith, getElem?_drop, getElem?_take]
  by_cases h : i < n - 1
  · rw [if_pos h, if_pos (show i < n by omega), if_pos (show 1 + i < n by omega)]
  · rw [if_neg h, if_neg (show ¬ 1 + i < n by omega)]
    split <;> simp_all

/-- Equal bigrams on a non-empty prefix are equal tokens on the prefix one longer. -/
theorem take_bigrams_eq_iff {k : Nat} (hk : 0 < k) {t u : List Int}
    (ht : k < t.length) (hu : k < u.length) :
    (bigrams t).take k = (bigrams u).take k ↔ t.take (k + 1) = u.take (k + 1) := by
  have e : ∀ v : List Int, (bigrams v).take k = bigrams (v.take (k + 1)) := by
    intro v
    rw [bigrams_take, Nat.add_sub_cancel]
  constructor
  · intro h
    -- position `j` of the pairs gives positions `j` and `j + 1` of the tokens
    have hget : ∀ j, j < k → t[j]? = u[j]? ∧ t[j + 1]? = u[j + 1]? := by
      intro j hj
      have hcongr := congrArg (fun l => l[j]?) h
      simp only [bigrams, getElem?_take, if_pos hj, getElem?_zipWith,
        getElem?_drop, Nat.add_comm 1 j] at hcongr
      rw [getElem?_eq_getElem (show j < t.length by omega),
        getElem?_eq_getElem (show j < u.length by omega),
        getElem?_eq_getElem (show j + 1 < t.length by omega),
        getElem?_eq_getElem (show j + 1 < u.length by omega)] at hcongr ⊢
      simpa using hcongr
    apply ext_getElem?
    intro i
    simp only [getElem?_take]
    rcases Nat.lt_or_ge i k with hi | hi
    · simp [(hget i hi).1]
    · by_cases hik : i = k
      · have hlast := (hget (k - 1) (by omega)).2
        rw [Nat.sub_add_cancel hk] at hlast
        simp [hik, hlast]
      · rw [if_neg (by omega), if_neg (by omega)]
  · intro h
    rw [e, e, h]

namespace RadixKey

variable (k : RadixKey)

theorem rawLen_le : k.rawLen ≤ k.tokenIds.length := by
  unfold rawLen
  dsimp only
  split
  · split <;> omega
  · exact le_rfl

theorem len_eq : k.len = if k.isBigram then k.rawLen - 1 else k.rawLen := by
  unfold len
  dsimp only
  split
  · split <;> omega
  · rfl

theorem units_eq_take :
    k.units = (if k.isBigram then bigrams k.tokenIds
      else k.tokenIds.map KeyUnit.token).take k.len := by
  rw [len_eq]
  unfold units rawTokenIds
  split
  · rw [bigrams_take]
  · rw [map_take]

@[simp] theorem units_length (k : RadixKey) : k.units.length = k.len := by
  have h := k.rawLen_le
  rw [units_eq_take, len_eq]
  split <;> simp <;> omega

theorem units_of_limit_none {k : RadixKey} (h : k.limit = none) :
    k.units = if k.isBigram then bigrams k.tokenIds else k.tokenIds.map KeyUnit.token := by
  rw [units_eq_take, len_eq]
  have hraw : k.rawLen = k.tokenIds.length := by simp [rawLen, h]
  split <;> apply take_of_length_le <;> simp [hraw]

@[simp] theorem slice_extraKey (k : RadixKey) (a b : Nat) :
    (k.slice a b).extraKey = k.extraKey := by
  unfold slice
  dsimp only
  split <;> rfl

@[simp] theorem slice_isBigram (k : RadixKey) (a b : Nat) :
    (k.slice a b).isBigram = k.isBigram := by
  unfold slice
  dsimp only
  split <;> simp_all

theorem units_slice (a b : Nat) :
    (k.slice a b).units = pySlice k.units a b := by
  rw [units_eq_take k, pySlice_take]
  rw [units_of_limit_none (by unfold slice; dsimp only; split <;> rfl), slice_isBigram]
  unfold slice
  dsimp only
  cases hb : k.isBigram
  case false => simp [pySlice, map_drop, map_take]
  case true =>
    simp only [if_true]
    by_cases hab : min a k.len < min b k.len
    · rw [if_pos hab, bigrams_pySlice _ hab]
    · rw [if_neg hab, pySlice_eq_nil _ (by omega), bigrams_nil]

@[simp] theorem units_takeUnits (k : RadixKey) (n : Nat) :
    (k.takeUnits n).units = k.units.take n := by
  simp [takeUnits, units_slice, pySlice]

@[simp] theorem units_dropUnits (k : RadixKey) (n : Nat) :
    (k.dropUnits n).units = k.units.drop n := by
  rw [dropUnits, units_slice, pySlice, take_of_length_le (by simp)]

theorem len_takeUnits (n : Nat) : (k.takeUnits n).len = min n k.len := by
  rw [← units_length, units_takeUnits, length_take, units_length]

theorem len_dropUnits (n : Nat) : (k.dropUnits n).len = k.len - n := by
  rw [← units_length, units_dropUnits, length_drop, units_length]

theorem units_pageAligned (pageSize : Nat) :
    (k.pageAligned pageSize).units = k.units.take (pageFloor pageSize k.len) := by
  unfold pageAligned
  split
  · next h => rw [h, pageFloor_one, take_of_length_le (by simp)]
  · rw [units_takeUnits]; rfl

theorem len_pageAligned (pageSize : Nat) :
    (k.pageAligned pageSize).len = pageFloor pageSize k.len := by
  rw [← units_length, units_pageAligned, length_take, units_length]
  exact min_eq_left (pageFloor_le _ _)

@[simp] theorem pageAligned_extraKey (k : RadixKey) (pageSize : Nat) :
    (k.pageAligned pageSize).extraKey = k.extraKey := by
  unfold pageAligned
  split <;> simp [takeUnits]

@[simp] theorem pageAligned_isBigram (k : RadixKey) (pageSize : Nat) :
    (k.pageAligned pageSize).isBigram = k.isBigram := by
  unfold pageAligned
  split <;> simp [takeUnits]

@[simp] theorem maybeToBigramView_extraKey (k : RadixKey) (isEagle : Bool) :
    (k.maybeToBigramView isEagle).extraKey = k.extraKey := by
  unfold maybeToBigramView
  split <;> rfl

theorem maybeToBigramView_isBigram (isEagle : Bool) :
    (k.maybeToBigramView isEagle).isBigram = (isEagle || k.isBigram) := by
  unfold maybeToBigramView
  cases isEagle <;> cases hk : k.isBigram <;> simp [hk]

end RadixKey

/-! ## Section 4: Correctness of the galloping match -/

theorem pySlice_eq_iff_le_lcp {t0 t1 : List Int} {lo m : Nat} (hlo : lo ≤ lcp t0 t1)
    (hm : lo ≤ m) (h0 : m ≤ t0.length) (h1 : m ≤ t1.length) :
    pySlice t0 lo m = pySlice t1 lo m ↔ m ≤ lcp t0 t1 := by
  have hsplit : ∀ t : List Int, t.take m = t.take lo ++ pySlice t lo m := by
    intro t
    have h := (take_append_drop lo (t.take m)).symm
    rwa [take_take, min_eq_left hm] at h
  have hcommon := (le_lcp_iff.mp hlo).2.2
  rw [le_lcp_iff, hsplit t0, hsplit t1, hcommon, append_cancel_left_eq]
  exact ⟨fun h => ⟨h0, h1, h⟩, fun h => h.2.2⟩

namespace RadixKey

theorem bisect_eq_lcp {t0 t1 : List Int} :
    ∀ {fuel lo hi : Nat}, hi - lo ≤ fuel → lo ≤ lcp t0 t1 → lcp t0 t1 < hi →
      hi ≤ t0.length → hi ≤ t1.length → bisect t0 t1 fuel lo hi = lcp t0 t1 := by
  intro fuel
  induction fuel with
  | zero =>
    intro lo hi hfuel hlo hhi _ _
    omega
  | succ fuel ih =>
    intro lo hi hfuel hlo hhi h0 h1
    unfold bisect
    by_cases hgap : hi - lo > 1
    · simp only [if_pos hgap]
      have hmid : lo < (lo + hi) / 2 ∧ (lo + hi) / 2 < hi := by omega
      have hiff := pySlice_eq_iff_le_lcp hlo hmid.1.le (hmid.2.le.trans h0) (hmid.2.le.trans h1)
      by_cases heq : pySlice t0 lo ((lo + hi) / 2) = pySlice t1 lo ((lo + hi) / 2)
      · rw [if_pos heq]
        exact ih (by omega) (hiff.mp heq) hhi h0 h1
      · rw [if_neg heq]
        have hlt : lcp t0 t1 < (lo + hi) / 2 := by
          by_contra hge
          exact heq (hiff.mpr (not_lt.mp hge))
        exact ih (by omega) hlo hlt (hmid.2.le.trans h0) (hmid.2.le.trans h1)
    · rw [if_neg hgap]
      omega

/-- The gallop keeps agreement up to `lo` and bisects the first window that differs. -/
theorem gallop_eq_lcp {t0 t1 : List Int} {n : Nat} (hn : n = min t0.length t1.length) :
    ∀ {fuel lo step : Nat}, n - lo < fuel → 0 < step → lo ≤ n → lo ≤ lcp t0 t1 →
      gallop t0 t1 n fuel lo step = lcp t0 t1 := by
  have hmax : lcp t0 t1 ≤ n := by
    rw [hn]
    exact le_min (lcp_le_left t0 t1) (lcp_le_right t0 t1)
  intro fuel
  induction fuel with
  | zero =>
    intro lo step hfuel
    omega
  | succ fuel ih =>
    intro lo step hfuel hstep hlon hlo
    unfold gallop
    by_cases hlt : lo < n
    · simp only [if_pos hlt]
      set hi := if lo + step < n then lo + step else n with hhi
      have hhi_gt : lo < hi := by rw [hhi]; split <;> omega
      have hhi_le : hi ≤ n := by rw [hhi]; split <;> omega
      have h0 : hi ≤ t0.length := hhi_le.trans (by rw [hn]; exact min_le_left _ _)
      have h1 : hi ≤ t1.length := hhi_le.trans (by rw [hn]; exact min_le_right _ _)
      have hiff := pySlice_eq_iff_le_lcp hlo hhi_gt.le h0 h1
      by_cases heq : pySlice t0 lo hi = pySlice t1 lo hi
      · rw [if_neg (not_not.mpr heq)]
        exact ih (by omega) (by omega) hhi_le (hiff.mp heq)
      · rw [if_pos heq]
        refine bisect_eq_lcp le_rfl hlo ?_ h0 h1
        by_contra hge
        exact heq (hiff.mpr (not_lt.mp hge))
    · rw [if_neg hlt]
      omega

theorem matchedTokens_eq_lcp (t0 t1 : List Int) : matchedTokens t0 t1 = lcp t0 t1 :=
  gallop_eq_lcp rfl (by omega) one_pos (Nat.zero_le _) (Nat.zero_le _)

theorem lcp_bigrams (t u : List Int) : lcp (bigrams t) (bigrams u) = lcp t u - 1 := by
  apply eq_of_forall_le_iff
  intro k
  rcases Nat.eq_zero_or_pos k with rfl | hk
  · simp
  rw [show k ≤ lcp t u - 1 ↔ k + 1 ≤ lcp t u by omega, le_lcp_iff, le_lcp_iff]
  simp only [bigrams_length]
  constructor
  · rintro ⟨ht, hu, heq⟩
    exact ⟨by omega, by omega, (take_bigrams_eq_iff hk (by omega) (by omega)).mp heq⟩
  · rintro ⟨ht, hu, heq⟩
    exact ⟨by omega, by omega, (take_bigrams_eq_iff hk (by omega) (by omega)).mpr heq⟩

/-- `match` is the page-rounded common prefix of the logical units. -/
theorem matchLen_eq {k other : RadixKey} {pageSize : Nat} (hps : 0 < pageSize)
    (hmode : k.isBigram = other.isBigram) :
    k.matchLen other pageSize = pageFloor pageSize (lcp k.units other.units) := by
  have hround : ∀ m, (if pageSize > 1 then m / pageSize * pageSize else m)
      = pageFloor pageSize m := by
    intro m
    split
    · rfl
    · have : pageSize = 1 := by omega
      simp [this]
  have hround' : ∀ m, (if pageSize = 1 then m else m / pageSize * pageSize)
      = pageFloor pageSize m := by
    intro m
    split
    · next h => simp [h]
    · rfl
  rw [units_eq_take k, units_eq_take other, lcp_take_take, ← hmode]
  unfold matchLen
  dsimp only
  rw [matchedTokens_eq_lcp]
  cases hb : k.isBigram
  case true =>
    simp only [if_true]
    rw [hround, lcp_bigrams]
  case false =>
    simp only [Bool.false_eq_true, if_false]
    rw [hround', lcp_map _ (fun a b h => by simpa using h)]

/-- What a scan of the units, one after the other, makes of two keys: the greatest multiple of the
page size up to which they agree. A key that is cut at a page boundary is matched piece by piece,
the second piece only after all of the first has matched. -/
structure ScansTo (k other : RadixKey) (pageSize r : Nat) : Prop where
  greatest : IsGreatest {n | pageSize ∣ n ∧ n ≤ lcp k.units other.units} r
  pieces : ∀ m, pageSize ∣ m → ∃ r₁ r₂,
    k.match (other.takeUnits m) pageSize = some r₁ ∧
    (k.dropUnits m).match (other.dropUnits m) pageSize = some r₂ ∧
    r₁ ≤ m ∧ r = if r₁ = m then m + r₂ else r₁

theorem match_of_extraKey {k other : RadixKey} (pageSize : Nat) (h : k.extraKey = other.extraKey) :
    k.match other pageSize = some (k.matchLen other pageSize) := if_neg (not_not_intro h)

theorem matchLen_pieces {k other : RadixKey} {pageSize m : Nat} (hps : 0 < pageSize)
    (hmode : k.isBigram = other.isBigram) (hm : pageSize ∣ m) :
    k.matchLen (other.takeUnits m) pageSize ≤ m ∧
    k.matchLen other pageSize =
      if k.matchLen (other.takeUnits m) pageSize = m then
        m + (k.dropUnits m).matchLen (other.dropUnits m) pageSize
      else k.matchLen (other.takeUnits m) pageSize := by
  have hfirst : k.matchLen (other.takeUnits m) pageSize =
      pageFloor pageSize (min (lcp k.units other.units) m) := by
    have hmode' : k.isBigram = (other.takeUnits m).isBigram := by
      rw [takeUnits, slice_isBigram, hmode]
    rw [matchLen_eq hps hmode', units_takeUnits, lcp_take_right]
  have hsecond : (k.dropUnits m).matchLen (other.dropUnits m) pageSize =
      pageFloor pageSize (lcp (k.units.drop m) (other.units.drop m)) := by
    have hmode' : (k.dropUnits m).isBigram = (other.dropUnits m).isBigram := by
      rw [dropUnits, dropUnits, slice_isBigram, slice_isBigram, hmode]
    rw [matchLen_eq hps hmode', units_dropUnits, units_dropUnits]
  rw [hfirst, hsecond, matchLen_eq hps hmode]
  refine ⟨(pageFloor_le _ _).trans (min_le_right _ _), ?_⟩
  rcases Nat.le_total m (lcp k.units other.units) with hle | hlt
  · -- the keys agree on all of the first piece
    rw [min_eq_right hle, pageFloor_eq_self hm, if_pos rfl, ← pageFloor_add_of_dvd hps hm,
      ← lcp_eq_add_drop hle]
  · rw [min_eq_left hlt]
    split
    · next heq =>
      -- they agree exactly up to the cut, and the second pieces differ at once
      have hend : lcp k.units other.units = m := le_antisymm hlt (heq ▸ pageFloor_le _ _)
      have hrest := lcp_eq_add_drop hend.ge
      rw [hend] at hrest
      rw [heq, Nat.left_eq_add.mp hrest, pageFloor, Nat.zero_div, Nat.zero_mul, Nat.add_zero]
    · rfl

/-- `match` finds what the scan finds. -/
theorem match_scansTo {k other : RadixKey} {pageSize : Nat} (hps : 0 < pageSize)
    (hextra : k.extraKey = other.extraKey) (hmode : k.isBigram = other.isBigram) :
    ∃ r, k.match other pageSize = some r ∧ ScansTo k other pageSize r := by
  refine ⟨_, match_of_extraKey pageSize hextra, ?_, ?_⟩
  · rw [matchLen_eq hps hmode]
    exact ⟨⟨dvd_pageFloor _ _, pageFloor_le _ _⟩, fun n hn => (le_pageFloor_iff hn.1).mpr hn.2⟩
  · intro m hm
    obtain ⟨hle, hsum⟩ := @matchLen_pieces k other _ m hps hmode hm
    refine ⟨_, _, match_of_extraKey pageSize ?_, match_of_extraKey pageSize ?_, hle, hsum⟩
    · exact hextra.trans (slice_extraKey _ _ _).symm
    · rw [dropUnits, dropUnits, slice_extraKey, slice_extraKey, hextra]

theorem match_scansTo_bigram :
    ∃ r, RadixKey.match { tokenIds := [1, 2, 3, 4, 5, 6], isBigram := true, limit := some 5 }
        { tokenIds := [1, 2, 3, 4, 9], isBigram := true } 2 = some r ∧
      ScansTo { tokenIds := [1, 2, 3, 4, 5, 6], isBigram := true, limit := some 5 }
        { tokenIds := [1, 2, 3, 4, 9], isBigram := true } 2 r :=
  match_scansTo (by decide) rfl rfl

end RadixKey

/-! ## Section 5: Namespaced letters -/

/-- A unit together with the namespace of its key: the alphabet of the radix trees. -/
abbrev Letter := Option String × KeyUnit

namespace RadixKey

/-- The units of a key, each tagged with the key's namespace. -/
def letters (k : RadixKey) : List Letter := k.units.map (fun u => (k.extraKey, u))

@[simp] theorem letters_length (k : RadixKey) : k.letters.length = k.len := by simp [letters]

theorem letters_eq_nil_iff (k : RadixKey) : k.letters = [] ↔ k.len = 0 := by
  rw [← length_eq_zero_iff, letters_length]

@[simp] theorem letters_takeUnits (k : RadixKey) (n : Nat) :
    (k.takeUnits n).letters = k.letters.take n := by
  simp only [letters, units_takeUnits, map_take]
  simp [takeUnits]

@[simp] theorem letters_dropUnits (k : RadixKey) (n : Nat) :
    (k.dropUnits n).letters = k.letters.drop n := by
  simp only [letters, units_dropUnits, map_drop]
  simp [dropUnits]

theorem letters_pageAligned (k : RadixKey) (pageSize : Nat) :
    (k.pageAligned pageSize).letters = k.letters.take (pageFloor pageSize k.len) := by
  simp [letters, units_pageAligned, map_take]

theorem matchLen_eq_lcp_letters {k other : RadixKey} {pageSize : Nat} (hps : 0 < pageSize)
    (hmode : k.isBigram = other.isBigram) (hextra : k.extraKey = other.extraKey) :
    k.matchLen other pageSize = pageFloor pageSize (lcp k.letters other.letters) := by
  rw [matchLen_eq hps hmode, letters, letters, hextra, lcp_map]
  intro a b h
  simpa using h

def ChildKey.letters (c : ChildKey) : List Letter := c.plain.map (fun u => (c.extraKey, u))

/-- The child key whose letters a page is, if the page carries a single namespace. -/
def ChildKey.ofLetters (l : List Letter) : ChildKey where
  extraKey := (l.head?.map Prod.fst).getD none
  plain := l.map Prod.snd

theorem childKey_plain {k : RadixKey} {pageSize : Nat} (h : pageSize ≤ k.len) :
    (k.childKey pageSize).plain = k.units.take pageSize := by
  rw [units_eq_take, take_take, min_eq_left h]
  unfold childKey
  dsimp only
  split
  · rw [bigrams_take, Nat.add_sub_cancel]
  · rw [map_take]

theorem childKey_letters {k : RadixKey} {pageSize : Nat} (h : pageSize ≤ k.len) :
    (k.childKey pageSize).letters = k.letters.take pageSize := by
  simp only [ChildKey.letters, childKey_plain h, letters, map_take]
  rfl

theorem ChildKey.ofLetters_letters {c : ChildKey} (h : c.plain ≠ []) :
    ChildKey.ofLetters c.letters = c := by
  obtain ⟨e, pl⟩ := c
  cases pl with
  | nil => simp at h
  | cons u us => simp [ChildKey.ofLetters, ChildKey.letters]

theorem childKey_eq_iff {k other : RadixKey} {pageSize : Nat} (hps : 0 < pageSize)
    (hk : pageSize ≤ k.len) (ho : pageSize ≤ other.len) :
    k.childKey pageSize = other.childKey pageSize ↔
      k.letters.take pageSize = other.letters.take pageSize := by
  rw [← childKey_letters hk, ← childKey_letters ho]
  constructor
  · intro h
    rw [h]
  · intro h
    have hne : ∀ q : RadixKey, pageSize ≤ q.len → (q.childKey pageSize).plain ≠ [] := by
      intro q hq hnil
      have := congrArg List.length (childKey_plain hq)
      simp [hnil] at this
      omega
    rw [← ChildKey.ofLetters_letters (hne k hk), h, ChildKey.ofLetters_letters (hne other ho)]

end RadixKey

end Sglang.MemCache
