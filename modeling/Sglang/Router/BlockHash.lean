import Sglang.MemCache.PageHash

/-!
# Block Hashes of the Router and of the Worker

Model of `kv_events/hash.rs` (the router's hash of a whole prompt) and of `hash_binding.cpp` (the
worker's native page hash), over an uninterpreted SHA-256.

- `computeBlockHashes`, `computeBlockHashesBigram`: the router,
- `pagesHashes`: the worker, for buffers of 4-byte and 8-byte elements,
- `hexSha`: the hash that the model of the cache takes as a parameter, on bytes,
- `routerHashes`: the router, in the mode the worker reports,
- `hashPages_promptUnits`: the hashes of the pages of a prompt are the router's.
-/

namespace Sglang.Router

open List Option
open MemCache

/-! ## Section 1: Bytes and digests -/

/-- A SHA-256 digest, `[u8; 32]`. -/
structure Digest where
  bytes : List UInt8
  length_eq : bytes.length = 32

/-- `u32::to_le_bytes`; also a 32-bit word in the memory of the worker. -/
def toLeBytes (w : UInt32) : List UInt8 :=
  [w.toUInt8, (w >>> 8).toUInt8, (w >>> 16).toUInt8, (w >>> 24).toUInt8]

/-- The bytes of a hash input after the digest of the page before it. -/
def chained (prior : Option Digest) (bytes : List UInt8) : List UInt8 :=
  match prior with
  | none => bytes
  | some d => d.bytes ++ bytes

/-- Bytes as a number, the first byte on top. -/
def beValue (bytes : List UInt8) : Nat := bytes.foldl (fun acc b => acc * 256 + b.toNat) 0

/-- `sha256_to_i64`: `i64::from_be_bytes` of the first eight bytes. -/
def sha256ToI64 (digest : Digest) : Int64 := (UInt64.ofNat (beValue (digest.bytes.take 8))).toInt64

/-! ## Section 2: The router -/

section Router

variable (sha : List UInt8 → Digest)

def chainBlock (parent : Option Digest) (blockTokens : List UInt32) : Digest :=
  sha (chained parent (blockTokens.flatMap toLeBytes))

/-- The tokens of the pairs `start..end`, both tokens of each. -/
def bigramWords (tokens : List UInt32) (start stop : Nat) : List UInt32 :=
  (List.range' start (stop - start)).flatMap fun j =>
    (tokens[j]?).toList ++ (tokens[j + 1]?).toList

def chainBlockBigram (parent : Option Digest) (tokens : List UInt32) (start stop : Nat) : Digest :=
  sha (chained parent ((bigramWords tokens start stop).flatMap toLeBytes))

/-- The loop of both functions over the units `start..logicalLen`. -/
def blockLoop (block : Option Digest → Nat → Nat → Digest) (blockSize : Nat) (hpos : 0 < blockSize)
    (logicalLen start : Nat) (prior : Option Digest) : List Int64 :=
  if start < logicalLen then
    let stop := min (start + blockSize) logicalLen
    let digest := block prior start stop
    sha256ToI64 digest :: blockLoop block blockSize hpos logicalLen stop (some digest)
  else []
termination_by logicalLen - start

/-- `compute_block_hashes`; `none` is the panic on an empty block. -/
def computeBlockHashes (tokenIds : List UInt32) (blockSize : Nat) : Option (List Int64) :=
  if hpos : 0 < blockSize then
    some (blockLoop (fun prior start stop => chainBlock sha prior (pySlice tokenIds start stop))
      blockSize hpos tokenIds.length 0 none)
  else none

def computeBlockHashesBigram (tokenIds : List UInt32) (blockSize : Nat) : Option (List Int64) :=
  if hpos : 0 < blockSize then
    some (blockLoop (fun prior start stop => chainBlockBigram sha prior tokenIds start stop)
      blockSize hpos (tokenIds.length - 1) 0 none)
  else none

end Router

/-! ## Section 3: The worker -/

/-- `kHex`. -/
def hexChar (n : Nat) : Char := ("0123456789abcdef".toList).getD n '0'

/-- `digest_to_hex_chars`. -/
def hexChars (bytes : List UInt8) : List Char :=
  bytes.flatMap fun b => [hexChar (b.toNat / 16), hexChar (b.toNat % 16)]

def digestToHexString (digest : Digest) : String := String.ofList (hexChars digest.bytes)

/-- The value of a lower-case hexadecimal digit. -/
def hexDigitValue (c : Char) : Nat :=
  if c.isDigit then c.toNat - '0'.toNat else c.toNat - 'a'.toNat + 10

/-- `bytes.fromhex` on pairs of lower-case digits. -/
def fromHexChars : List Char → List UInt8
  | a :: b :: cs => UInt8.ofNat (hexDigitValue a * 16 + hexDigitValue b) :: fromHexChars cs
  | _ => []

/-- The buffer of raw tokens: elements of four bytes (`array("I")`) or eight (`array("q")`). -/
inductive RawTokens where
  | u32 (raw : List UInt32)
  | u64 (raw : List UInt64)

/-- `checked_u32`, on an element of the buffer. -/
def checkedWord (v : UInt64) : Option UInt32 := if v.toNat < 2 ^ 32 then some v.toUInt32 else none

/-- An element of the buffer as a 32-bit word; reading past the end is refused by
`get_raw_token_buffer`. -/
def RawTokens.word (raw : RawTokens) (i : Nat) : Option UInt32 :=
  match raw with
  | .u32 raw => raw[i]?
  | .u64 raw => raw[i]?.bind checkedWord

/-- `fill_regular_page`; for 4-byte elements these are the raw bytes of the buffer. -/
def fillRegularPage (raw : RawTokens) (start : Nat) : Nat → Option (List UInt32)
  | 0 => some []
  | count + 1 => do
    let w ← raw.word start
    let ws ← fillRegularPage raw (start + 1) count
    some (w :: ws)

/-- The loop of `fill_bigram_page`: `prev` is the token at `i`. -/
def fillBigramLoop (raw : RawTokens) (prev : UInt32) (i : Nat) : Nat → Option (List UInt32)
  | 0 => some []
  | count + 1 => do
    let next ← raw.word (i + 1)
    let ws ← fillBigramLoop raw next (i + 1) count
    some (prev :: next :: ws)

def fillBigramPage (raw : RawTokens) (start count : Nat) : Option (List UInt32) := do
  let prev ← raw.word start
  fillBigramLoop raw prev start count

/-- The words that are hashed for the units `start..start + count`. -/
def rawPageWords (raw : RawTokens) (isBigram : Bool) (start count : Nat) : Option (List UInt32) :=
  if isBigram then fillBigramPage raw start count else fillRegularPage raw start count

section Worker

variable (sha : List UInt8 → Digest)

def hashPage (prior : Option Digest) (words : List UInt32) : Digest :=
  sha (chained prior (words.flatMap toLeBytes))

/-- `hash_pages_to_hex_blob` from the unit `start` on; `none` is an exception. -/
def hashPagesToHexBlob (raw : RawTokens) (isBigram : Bool) (pageSize : Nat) (hpos : 0 < pageSize)
    (logicalLen start : Nat) (prior : Option Digest) : Option (List String) :=
  if start < logicalLen then do
    let words ← rawPageWords raw isBigram start (min pageSize (logicalLen - start))
    let digest := hashPage sha prior words
    let rest ← hashPagesToHexBlob raw isBigram pageSize hpos logicalLen (start + pageSize)
      (some digest)
    some (digestToHexString digest :: rest)
  else some []
termination_by logicalLen - start

def pagesHashes (raw : RawTokens) (logicalLen pageSize : Nat) (isBigram : Bool)
    (prior : Option Digest) : Option (List String) :=
  if hpos : 0 < pageSize then
    hashPagesToHexBlob sha raw isBigram pageSize hpos logicalLen 0 prior
  else none

/-- The hash of a page as the cache sees it: hexadecimal digits in and out. -/
def hexSha (prior : Option String) (words : List Nat) : String :=
  digestToHexString (sha ((prior.map fun h => fromHexChars h.toList).getD [] ++
    words.flatMap fun w => toLeBytes (UInt32.ofNat w)))

end Worker

/-! ## Section 4: Hexadecimal digits -/

theorem hexDigitValue_hexChar {n : Nat} (h : n < 16) : hexDigitValue (hexChar n) = n := by
  have hall : ∀ n < 16, hexDigitValue (hexChar n) = n := by decide
  exact hall n h

theorem hexDigitValue_byte (b : UInt8) :
    hexDigitValue (hexChar (b.toNat / 16)) = b.toNat / 16 ∧
      hexDigitValue (hexChar (b.toNat % 16)) = b.toNat % 16 := by
  have hb := b.toNat_lt
  exact ⟨hexDigitValue_hexChar (by omega), hexDigitValue_hexChar (by omega)⟩

variable (bytes : List UInt8) {isBigram : Bool} {ts : List UInt32}

theorem fromHexChars_hexChars : fromHexChars (hexChars bytes) = bytes := by
  induction bytes with
  | nil => rfl
  | cons b bytes ih =>
    obtain ⟨hhi, hlo⟩ := hexDigitValue_byte b
    have hcons : fromHexChars (hexChars (b :: bytes)) =
        UInt8.ofNat (hexDigitValue (hexChar (b.toNat / 16)) * 16 +
          hexDigitValue (hexChar (b.toNat % 16))) :: fromHexChars (hexChars bytes) := rfl
    rw [hcons, ih, hhi, hlo, Nat.div_add_mod' b.toNat 16, UInt8.ofNat_toNat]

theorem hexValue_hexChars : hexValue (hexChars bytes) = beValue bytes := by
  have hfold : ∀ acc : Nat, (hexChars bytes).foldl (fun acc c => acc * 16 + hexDigitValue c) acc =
      bytes.foldl (fun acc b => acc * 256 + b.toNat) acc := by
    induction bytes with
    | nil => exact fun acc => rfl
    | cons b bytes ih =>
      intro acc
      obtain ⟨hhi, hlo⟩ := hexDigitValue_byte b
      have hcons : (hexChars (b :: bytes)).foldl (fun acc c => acc * 16 + hexDigitValue c) acc =
          (hexChars bytes).foldl (fun acc c => acc * 16 + hexDigitValue c)
            ((acc * 16 + hexDigitValue (hexChar (b.toNat / 16))) * 16 +
              hexDigitValue (hexChar (b.toNat % 16))) := rfl
      rw [hcons, ih, hhi, hlo, foldl_cons]
      congr 1
      omega
  exact hfold 0

theorem hexChars_take (n : Nat) :
    (hexChars bytes).take (2 * n) = hexChars (bytes.take n) := by
  induction bytes generalizing n with
  | nil => simp [hexChars]
  | cons b bytes ih =>
    cases n with
    | zero => simp [hexChars]
    | succ n =>
      have hcons : hexChars (b :: bytes) =
          hexChar (b.toNat / 16) :: hexChar (b.toNat % 16) :: hexChars bytes := rfl
      rw [hcons, Nat.mul_succ, take_succ_cons, take_succ_cons, ih]
      rfl

theorem beValue_lt : beValue bytes < 256 ^ bytes.length := by
  have hfold : ∀ acc : Nat, bytes.foldl (fun acc b => acc * 256 + b.toNat) acc <
      (acc + 1) * 256 ^ bytes.length := by
    induction bytes with
    | nil => intro acc; simp
    | cons b bytes ih =>
      intro acc
      have hb := b.toNat_lt
      calc bytes.foldl (fun acc b => acc * 256 + b.toNat) (acc * 256 + b.toNat)
          < (acc * 256 + b.toNat + 1) * 256 ^ bytes.length := ih _
        _ ≤ ((acc + 1) * 256) * 256 ^ bytes.length := Nat.mul_le_mul_right _ (by omega)
        _ = (acc + 1) * 256 ^ (b :: bytes).length := by
          rw [length_cons, Nat.pow_succ]
          ring
  simpa [beValue] using hfold 0

theorem hashStrToInt64_digest (d : Digest) :
    hashStrToInt64 (digestToHexString d) = (sha256ToI64 d).toInt := by
  have htop : ((digestToHexString d).toList.take 16) = hexChars (d.bytes.take 8) := by
    rw [digestToHexString, String.toList_ofList]
    exact hexChars_take d.bytes 8
  have hlt : beValue (d.bytes.take 8) < 2 ^ 64 := by
    have h := beValue_lt (d.bytes.take 8)
    rw [length_take, d.length_eq] at h
    exact h
  unfold hashStrToInt64 sha256ToI64
  rw [htop, hexValue_hexChars]
  generalize beValue (d.bytes.take 8) = v at hlt
  have hint : (UInt64.ofNat v).toInt64.toInt = (BitVec.ofNat 64 v).toInt := rfl
  rw [hint, BitVec.toInt_eq_toNat_cond, BitVec.toNat_ofNat, Nat.mod_eq_of_lt hlt]
  dsimp only
  split <;> split <;> omega

/-! ## Section 5: The words of a page -/

/-- 32-bit token ids as the worker's integers. -/
def intTokens (ts : List UInt32) : List Int := ts.map fun t => (t.toNat : Int)

/-- The units of a prompt in either mode. -/
def promptUnits (isBigram : Bool) (ts : List UInt32) : List KeyUnit :=
  if isBigram then bigrams (intTokens ts) else (intTokens ts).map KeyUnit.token

/-- The words of the unit `j` of a prompt. -/
def wordsAt (isBigram : Bool) (ts : List UInt32) (j : Nat) : List UInt32 :=
  if isBigram then (ts[j]?).toList ++ (ts[j + 1]?).toList else (ts[j]?).toList

/-- The words of the units `start..start + n` of a prompt. -/
def wordsFrom (isBigram : Bool) (ts : List UInt32) (start n : Nat) : List UInt32 :=
  (List.range' start n).flatMap (wordsAt isBigram ts)

theorem wordsFrom_succ (isBigram : Bool) (ts : List UInt32) (start n : Nat) :
    wordsFrom isBigram ts start (n + 1) =
      wordsAt isBigram ts start ++ wordsFrom isBigram ts (start + 1) n := by
  rw [wordsFrom, range'_succ, flatMap_cons]
  rfl

theorem pySlice_eq_wordsFrom (ts : List UInt32) (start n : Nat) :
    pySlice ts start (start + n) = wordsFrom false ts start n := by
  induction n generalizing start with
  | zero => simp [pySlice_eq_nil, wordsFrom]
  | succ n ih =>
    have hslice : ∀ m, pySlice ts start (start + m) = (ts.drop start).take m := by
      intro m
      rw [pySlice, drop_take, Nat.add_sub_cancel_left]
    rw [wordsFrom_succ, ← ih (start + 1), hslice, pySlice, drop_take, Nat.add_sub_cancel_left]
    by_cases hlt : start < ts.length
    · rw [drop_eq_getElem_cons hlt, take_succ_cons]
      simp [wordsAt, hlt]
    · rw [drop_eq_nil_of_le (by omega), drop_eq_nil_of_le (by omega)]
      simp [wordsAt, getElem?_eq_none (show ts.length ≤ start by omega)]

theorem bigramWords_eq_wordsFrom (ts : List UInt32) (start n : Nat) :
    bigramWords ts start (start + n) = wordsFrom true ts start n := by
  rw [bigramWords, Nat.add_sub_cancel_left]
  rfl

@[simp] theorem promptUnits_length (isBigram : Bool) (ts : List UInt32) :
    (promptUnits isBigram ts).length = if isBigram then ts.length - 1 else ts.length := by
  cases isBigram <;> simp [promptUnits, intTokens]

theorem checkedU32_toNat (t : UInt32) : checkedU32 (t.toNat : Int) = some t.toNat := by
  have := t.toNat_lt
  unfold checkedU32
  rw [if_pos ⟨by omega, by omega⟩, Int.toNat_natCast]

theorem unitWords_promptUnits {j : Nat}
    (h : j < (promptUnits isBigram ts).length) :
    unitWords (promptUnits isBigram ts)[j] =
      some ((wordsAt isBigram ts j).map UInt32.toNat) := by
  have hlen := promptUnits_length isBigram ts
  cases isBigram with
  | false =>
    have hj : j < ts.length := by simpa [hlen] using h
    simp [promptUnits, intTokens, unitWords, checkedU32_toNat, wordsAt, hj]
  | true =>
    have hj : j + 1 < ts.length := by
      simp only [hlen, if_true] at h
      omega
    have hj₀ : j < ts.length := by omega
    simp [promptUnits, intTokens, bigrams, unitWords, checkedU32_toNat, wordsAt, hj, hj₀]

theorem pageWords_promptUnits {start n : Nat}
    (h : start + n ≤ (promptUnits isBigram ts).length) :
    pageWords (((promptUnits isBigram ts).drop start).take n) =
      some ((wordsFrom isBigram ts start n).map UInt32.toNat) := by
  induction n generalizing start with
  | zero => simp [pageWords, wordsFrom]
  | succ n ih =>
    have hlt : start < (promptUnits isBigram ts).length := by omega
    have hrest := @ih (start + 1) (by omega)
    rw [drop_eq_getElem_cons hlt, take_succ_cons, pageWords, unitWords_promptUnits hlt,
      hrest, wordsFrom_succ]
    simp

def RawTokens.Holds (raw : RawTokens) (ts : List UInt32) : Prop :=
  raw = .u32 ts ∨ raw = .u64 (ts.map UInt32.toUInt64)

theorem RawTokens.Holds.word {raw : RawTokens} (h : raw.Holds ts) (i : Nat) :
    raw.word i = ts[i]? := by
  rcases h with rfl | rfl
  · rfl
  · simp only [RawTokens.word, getElem?_map, bind_map]
    cases ts[i]? with
    | none => rfl
    | some t =>
      have hlt : t.toNat < 4294967296 := t.toNat_lt
      simp [checkedWord, hlt]

/-- The words of a page of a prompt, as the extension reads them from its buffer. -/
theorem rawPageWords_eq {raw : RawTokens}
    (hraw : raw.Holds ts) {start n : Nat} (hn : 0 < n)
    (h : start + n ≤ (promptUnits isBigram ts).length) :
    rawPageWords raw isBigram start n = some (wordsFrom isBigram ts start n) := by
  rw [promptUnits_length] at h
  cases isBigram with
  | false =>
    rw [rawPageWords, if_neg (by decide)]
    clear hn
    induction n generalizing start with
    | zero => simp [fillRegularPage, wordsFrom]
    | succ n ih =>
      have hrest := @ih (start + 1) (by simp only [Bool.false_eq_true, if_false] at h ⊢; omega)
      have hlt : start < ts.length := by simp only [Bool.false_eq_true, if_false] at h; omega
      simp only [fillRegularPage, hraw.word, hrest, wordsFrom_succ]
      simp [wordsAt, hlt]
  | true =>
    simp only [if_true] at h
    -- the token carried in `prev` is the one before the next word
    have hloop : ∀ {start : Nat}, start + n ≤ ts.length - 1 → ∀ (hlt : start < ts.length),
        fillBigramLoop raw ts[start] start n = some (wordsFrom true ts start n) := by
      clear hn h
      induction n with
      | zero => intro start _ _; simp [fillBigramLoop, wordsFrom]
      | succ n ih =>
        intro start h hlt
        have hnext : start + 1 < ts.length := by omega
        have hrest := @ih (start + 1) (by omega) hnext
        simp only [fillBigramLoop, hraw.word, getElem?_eq_getElem hnext, wordsFrom_succ]
        simp [wordsAt, hlt, hnext, hrest]
    have hlt : start < ts.length := by omega
    simp only [rawPageWords, if_true, fillBigramPage, hraw.word, getElem?_eq_getElem hlt]
    exact hloop h hlt

/-! ## Section 6: Chains of digests -/

section Chains

variable (sha : List UInt8 → Digest)

/-- The digests of `n` whole pages of a prompt from the unit `start` on. -/
def pageDigests (isBigram : Bool) (ts : List UInt32) (ps : Nat) :
    Nat → Nat → Option Digest → List Digest
  | 0, _, _ => []
  | n + 1, start, prior =>
    let digest := hashPage sha prior (wordsFrom isBigram ts start ps)
    digest :: pageDigests isBigram ts ps n (start + ps) (some digest)

/-- What the router hashes a prompt with, in the mode the worker reports. -/
def routerHashes (isBigram : Bool) (ts : List UInt32) (blockSize : Nat) : Option (List Int64) :=
  if isBigram then computeBlockHashesBigram sha ts blockSize
    else computeBlockHashes sha ts blockSize

variable {sha}

theorem blockLoop_take {block : Option Digest → Nat → Nat → Digest} {isBigram : Bool}
    {ts : List UInt32} {ps logicalLen : Nat} (hpos : 0 < ps)
    (hblock : ∀ prior start n,
      block prior start (start + n) = hashPage sha prior (wordsFrom isBigram ts start n))
    {n start : Nat} {prior : Option Digest} (h : start + n * ps ≤ logicalLen) :
    (blockLoop block ps hpos logicalLen start prior).take n =
      (pageDigests sha isBigram ts ps n start prior).map sha256ToI64 := by
  induction n generalizing start prior with
  | zero => simp [pageDigests]
  | succ n ih =>
    rw [Nat.succ_mul] at h
    have hlt : start < logicalLen := by omega
    have hstop : min (start + ps) logicalLen = start + ps := by omega
    rw [blockLoop, if_pos hlt]
    simp only [hstop, hblock, take_succ_cons, pageDigests, map_cons]
    rw [ih (by omega)]

theorem routerHashes_take {isBigram : Bool} {ts : List UInt32} {ps n : Nat} (hpos : 0 < ps)
    (h : n * ps ≤ (promptUnits isBigram ts).length) :
    ∃ hs, routerHashes sha isBigram ts ps = some hs ∧
      hs.take n = (pageDigests sha isBigram ts ps n 0 none).map sha256ToI64 := by
  rw [promptUnits_length] at h
  cases isBigram with
  | false =>
    have hblock : ∀ prior start n, chainBlock sha prior (pySlice ts start (start + n)) =
        hashPage sha prior (wordsFrom false ts start n) := by
      intro prior start n
      rw [chainBlock, pySlice_eq_wordsFrom, hashPage]
    simp only [routerHashes, Bool.false_eq_true, if_false, computeBlockHashes, dif_pos hpos]
    refine ⟨_, rfl, ?_⟩
    apply blockLoop_take hpos
    · exact hblock
    · simpa using h
  | true =>
    have hblock : ∀ prior start n, chainBlockBigram sha prior ts start (start + n) =
        hashPage sha prior (wordsFrom true ts start n) := by
      intro prior start n
      rw [chainBlockBigram, bigramWords_eq_wordsFrom, hashPage]
    simp only [routerHashes, if_true, computeBlockHashesBigram, dif_pos hpos]
    refine ⟨_, rfl, ?_⟩
    apply blockLoop_take hpos
    · exact hblock
    · simpa using h

theorem hexSha_digest (prior : Option Digest) (words : List UInt32) :
    hexSha sha (prior.map digestToHexString) (words.map UInt32.toNat) =
      digestToHexString (hashPage sha prior words) := by
  have hwords : (words.map UInt32.toNat).flatMap (fun w => toLeBytes (UInt32.ofNat w)) =
      words.flatMap toLeBytes := by
    simp [flatMap_map]
  rw [hexSha, hwords, hashPage]
  cases prior with
  | none => rfl
  | some d =>
    simp [chained, digestToHexString, fromHexChars_hexChars]

variable {cfg : CacheConfig}

/-- The cache model hashes the whole pages of a prompt one after the other. -/
theorem hashPages_promptUnits (hsha : cfg.sha256 = hexSha sha) {isBigram : Bool} {ts : List UInt32}
    {n start : Nat} {prior : Option Digest}
    (h : start + n * cfg.pageSize ≤ (promptUnits isBigram ts).length) :
    hashPages cfg n ((promptUnits isBigram ts).drop start) (prior.map digestToHexString) =
      some ((pageDigests sha isBigram ts cfg.pageSize n start prior).map digestToHexString) := by
  induction n generalizing start prior with
  | zero => rfl
  | succ n ih =>
    rw [Nat.succ_mul] at h
    have hrest := @ih (start + cfg.pageSize)
      (some (hashPage sha prior (wordsFrom isBigram ts start cfg.pageSize))) (by omega)
    have hwords :=
      pageWords_promptUnits (show start + cfg.pageSize ≤ (promptUnits isBigram ts).length by omega)
    rw [map_some] at hrest
    simp only [hashPages, hsha, hwords, bind_eq_bind, bind_some, hexSha_digest,
      drop_drop, hrest, pageDigests, map_cons]

/-- Both kinds of buffers and both modes give the hashes of the cache model. -/
theorem hashPagesToHexBlob_eq (hsha : cfg.sha256 = hexSha sha) {raw : RawTokens} {isBigram : Bool}
    {ts : List UInt32} (hraw : raw.Holds ts) {start : Nat} {prior : Option Digest} :
    hashPagesToHexBlob sha raw isBigram cfg.pageSize cfg.pageSize_pos
        (promptUnits isBigram ts).length start prior =
      hashPages cfg (numPages cfg.pageSize ((promptUnits isBigram ts).length - start))
        ((promptUnits isBigram ts).drop start) (prior.map digestToHexString) := by
  have hps := cfg.pageSize_pos
  induction hleft : (promptUnits isBigram ts).length - start using Nat.strong_induction_on
    generalizing start prior with
  | _ left ih =>
    rw [hashPagesToHexBlob]
    split
    · next hlt =>
      have hpages : numPages cfg.pageSize left =
          numPages cfg.pageSize (left - cfg.pageSize) + 1 := by
        unfold numPages
        rcases Nat.lt_or_ge left cfg.pageSize with hshort | hlong
        · rw [show left - cfg.pageSize = 0 by omega, Nat.zero_add,
            Nat.div_eq_of_lt (show cfg.pageSize - 1 < cfg.pageSize by omega),
            show left + cfg.pageSize - 1 = (left - 1) + cfg.pageSize by omega,
            Nat.add_div_right _ hps, Nat.div_eq_of_lt (show left - 1 < cfg.pageSize by omega)]
        · rw [show left + cfg.pageSize - 1 = (left - cfg.pageSize + cfg.pageSize - 1) + cfg.pageSize
            by omega, Nat.add_div_right _ hps]
      have htake : ((promptUnits isBigram ts).drop start).take cfg.pageSize =
          ((promptUnits isBigram ts).drop start).take (min cfg.pageSize left) := by
        rw [take_eq_take_iff, length_drop]
        omega
      have hrest := fun d => @ih (left - cfg.pageSize) (by omega) (start + cfg.pageSize)
        (some d) (by omega)
      have hfit : start + min cfg.pageSize left ≤ (promptUnits isBigram ts).length := by omega
      rw [hpages]
      simp only [hleft, rawPageWords_eq hraw (show 0 < min cfg.pageSize left by omega) hfit,
        hashPages, hsha, htake, pageWords_promptUnits hfit, bind_eq_bind, bind_some,
        hexSha_digest, drop_drop, hrest, map_some]
    · next hge =>
      have hzero : numPages cfg.pageSize left = 0 := by
        rw [numPages, show left = 0 by omega]
        exact Nat.div_eq_of_lt (by omega)
      rw [hzero]
      rfl

end Chains

end Sglang.Router
