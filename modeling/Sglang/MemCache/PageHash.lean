import Sglang.MemCache.RadixCacheStore

/-!
# Page Hash Chains

Every page of a key is hashed after the digest of the page before it, so a page hash stands for
the whole prefix up to the page.

- `hashPages_append`, `hashPages_split`: chains compose and cut at page boundaries,
- `chainWords_inj`: the words a chain is hashed over determine the units of the key,
- `blockHash`: the hash under which a page is published; it does not see the namespace.
-/

namespace Sglang.MemCache

open List
open Lib

/-! ## Section 1: Chains compose -/

section Chains

variable {cfg : CacheConfig}

variable {us : List KeyUnit} {prior : Option String}

theorem hashPages_length {n : Nat}
    {hs : List String} (h : hashPages cfg n us prior = some hs) : hs.length = n := by
  induction n generalizing us prior hs with
  | zero =>
    simp only [hashPages, Option.some.injEq] at h
    simp [← h]
  | succ n ih =>
    simp only [hashPages, Option.bind_eq_bind, Option.bind_eq_some_iff, Option.some.injEq] at h
    obtain ⟨words, _, rest, hrest, rfl⟩ := h
    simp [ih hrest]

/-- The digest that the page after a chain is hashed after. -/
def lastDigest (hs : List String) (prior : Option String) : Option String := hs.getLast?.or prior

theorem lastDigest_cons (h : String) (hs : List String) (prior : Option String) :
    lastDigest (h :: hs) prior = lastDigest hs (some h) := by
  cases hs with
  | nil => rfl
  | cons g gs =>
    unfold lastDigest
    rw [getLast?_cons_cons]
    cases hl : (g :: gs).getLast? with
    | none => simp at hl
    | some x => rfl

theorem hashPages_append {a b : Nat} {us ws : List KeyUnit}
    {hs hs' : List String} (hlen : us.length = a * cfg.pageSize)
    (h : hashPages cfg a us prior = some hs)
    (h' : hashPages cfg b ws (lastDigest hs prior) = some hs') :
    hashPages cfg (a + b) (us ++ ws) prior = some (hs ++ hs') := by
  induction a generalizing us prior hs with
  | zero =>
    simp only [hashPages, Option.some.injEq] at h
    subst h
    have hnil : us = [] := length_eq_zero_iff.mp (by simpa using hlen)
    simpa [hnil, lastDigest] using h'
  | succ a ih =>
    simp only [hashPages, Option.bind_eq_bind, Option.bind_eq_some_iff, Option.some.injEq] at h
    obtain ⟨words, hwords, rest, hrest, rfl⟩ := h
    rw [lastDigest_cons] at h'
    have hle : cfg.pageSize ≤ us.length := by
      rw [hlen, Nat.add_mul]
      omega
    rw [show a + 1 + b = (a + b) + 1 by omega]
    simp only [hashPages, Option.bind_eq_bind, Option.bind_eq_some_iff, Option.some.injEq]
    refine ⟨words, by rw [take_append_of_le_length hle]; exact hwords, rest ++ hs', ?_, rfl⟩
    rw [drop_append_of_le_length hle]
    refine ih ?_ hrest h'
    rw [length_drop, hlen, Nat.add_mul]
    omega

theorem hashPages_split {a b : Nat}
    {hs : List String} (h : hashPages cfg (a + b) us prior = some hs) :
    hashPages cfg a (us.take (a * cfg.pageSize)) prior = some (hs.take a) ∧
      hashPages cfg b (us.drop (a * cfg.pageSize)) (lastDigest (hs.take a) prior) =
        some (hs.drop a) := by
  induction a generalizing us prior hs with
  | zero => simpa [hashPages, lastDigest] using h
  | succ a ih =>
    rw [show a + 1 + b = (a + b) + 1 by omega] at h
    simp only [hashPages, Option.bind_eq_bind, Option.bind_eq_some_iff, Option.some.injEq] at h
    obtain ⟨words, hwords, rest, hrest, rfl⟩ := h
    obtain ⟨h₁, h₂⟩ := ih hrest
    have hmul : (a + 1) * cfg.pageSize = cfg.pageSize + a * cfg.pageSize := by
      rw [Nat.add_mul, Nat.one_mul, Nat.add_comm]
    refine ⟨?_, ?_⟩
    · simp only [hashPages, Option.bind_eq_bind, Option.bind_eq_some_iff, Option.some.injEq]
      refine ⟨words, ?_, rest.take a, ?_, rfl⟩
      · rw [take_take, min_eq_left (by omega)]
        exact hwords
      · rw [hmul, drop_take, Nat.add_sub_cancel_left]
        exact h₁
    · rw [hmul, ← drop_drop, take_succ_cons, lastDigest_cons]
      exact h₂

theorem hashPages_isSome {n : Nat}
    (h : ∀ u ∈ us, (unitWords u).isSome) : (hashPages cfg n us prior).isSome := by
  have hpage : ∀ vs : List KeyUnit, (∀ u ∈ vs, (unitWords u).isSome) →
      (pageWords vs).isSome := by
    intro vs hvs
    induction vs with
    | nil => rfl
    | cons v vs ih =>
      obtain ⟨w, hw⟩ := Option.isSome_iff_exists.mp (hvs v (mem_cons_self ..))
      obtain ⟨ws, hws⟩ := Option.isSome_iff_exists.mp
        (ih fun u hu => hvs u (mem_cons_of_mem _ hu))
      simp [pageWords, hw, hws]
  induction n generalizing us prior with
  | zero => rfl
  | succ n ih =>
    obtain ⟨words, hwords⟩ := Option.isSome_iff_exists.mp
      (hpage (us.take cfg.pageSize) fun u hu => h u (mem_of_mem_take hu))
    have hdrop : (hashPages cfg n (us.drop cfg.pageSize)
        (some (cfg.sha256 prior words))).isSome := ih fun u hu => h u (mem_of_mem_drop hu)
    obtain ⟨rest, hrest⟩ := Option.isSome_iff_exists.mp hdrop
    simp [hashPages, hwords, hrest]

end Chains

/-! ## Section 2: Words determine units -/

/-- The words of each page of a chain, in order: the byte strings that are hashed. -/
def chainWords (ps : Nat) : Nat → List KeyUnit → Option (List (List Nat))
  | 0, _ => some []
  | n + 1, us => do
    let words ← pageWords (us.take ps)
    let rest ← chainWords ps n (us.drop ps)
    some (words :: rest)

/-- The digests of a chain, each after the one before it. -/
def digests (sha256 : Option String → List Nat → String) :
    Option String → List (List Nat) → List String
  | _, [] => []
  | prior, words :: rest => sha256 prior words :: digests sha256 (some (sha256 prior words)) rest

theorem hashPages_eq_digests (cfg : CacheConfig) (n : Nat) (us : List KeyUnit)
    (prior : Option String) :
    hashPages cfg n us prior = (chainWords cfg.pageSize n us).map (digests cfg.sha256 prior) := by
  induction n generalizing us prior with
  | zero => rfl
  | succ n ih =>
    simp only [hashPages, chainWords, Option.bind_eq_bind]
    cases pageWords (us.take cfg.pageSize) with
    | none => rfl
    | some words =>
      simp only [Option.bind_some, ih]
      cases chainWords cfg.pageSize n (us.drop cfg.pageSize) with
      | none => rfl
      | some rest => rfl

def OneMode (isBigram : Bool) (us : List KeyUnit) : Prop :=
  ∀ u ∈ us, if isBigram then ∃ a b, u = .bigram a b else ∃ t, u = .token t

theorem checkedU32_inj {s t : Int} {w : Nat} (hs : checkedU32 s = some w)
    (ht : checkedU32 t = some w) : s = t := by
  unfold checkedU32 at hs ht
  split at hs
  · split at ht
    · simp only [Option.some.injEq] at hs ht
      omega
    · cases ht
  · cases hs

theorem pageWords_length {isBigram : Bool} {us : List KeyUnit} {ws : List Nat}
    (hmode : OneMode isBigram us) (h : pageWords us = some ws) :
    ws.length = if isBigram then 2 * us.length else us.length := by
  induction us generalizing ws with
  | nil =>
    simp only [pageWords, Option.some.injEq] at h
    simp [← h]
  | cons u us ih =>
    simp only [pageWords, Option.bind_eq_bind, Option.bind_eq_some_iff, Option.some.injEq] at h
    obtain ⟨w, hw, ws', hws', rfl⟩ := h
    have hrest := ih (fun v hv => hmode v (mem_cons_of_mem _ hv)) hws'
    have hu := hmode u (mem_cons_self ..)
    cases isBigram with
    | false =>
      obtain ⟨t, rfl⟩ := hu
      simp only [unitWords, Option.map_eq_some_iff] at hw
      obtain ⟨x, _, rfl⟩ := hw
      simp at hrest ⊢
      omega
    | true =>
      obtain ⟨a, b, rfl⟩ := hu
      simp only [unitWords, Option.bind_eq_bind, Option.bind_eq_some_iff, Option.some.injEq] at hw
      obtain ⟨x, _, y, _, rfl⟩ := hw
      simp at hrest ⊢
      omega

theorem pageWords_inj {isBigram : Bool} {us vs : List KeyUnit} {ws : List Nat}
    (hu : OneMode isBigram us) (hv : OneMode isBigram vs) (h : pageWords us = some ws)
    (h' : pageWords vs = some ws) : us = vs := by
  induction us generalizing vs ws with
  | nil =>
    have hlen := pageWords_length hv h'
    simp only [pageWords, Option.some.injEq] at h
    subst h
    cases vs with
    | nil => rfl
    | cons v vs => cases isBigram <;> simp at hlen
  | cons u us ih =>
    cases vs with
    | nil =>
      have hlen := pageWords_length hu h
      simp only [pageWords, Option.some.injEq] at h'
      subst h'
      cases isBigram <;> simp at hlen
    | cons v vs =>
      simp only [pageWords, Option.bind_eq_bind, Option.bind_eq_some_iff, Option.some.injEq] at h h'
      obtain ⟨w, hw, ws₁, hws₁, rfl⟩ := h
      obtain ⟨w', hw', ws₂, hws₂, heq⟩ := h'
      have hmu := hu u (mem_cons_self ..)
      have hmv := hv v (mem_cons_self ..)
      have htail : ∀ {ws₃}, ws₁ = ws₃ → ws₂ = ws₃ → us = vs := fun e₁ e₂ =>
        ih (fun x hx => hu x (mem_cons_of_mem _ hx))
          (fun x hx => hv x (mem_cons_of_mem _ hx)) (e₁ ▸ hws₁) (e₂ ▸ hws₂)
      cases isBigram with
      | false =>
        obtain ⟨t, rfl⟩ := hmu
        obtain ⟨t', rfl⟩ := hmv
        simp only [unitWords, Option.map_eq_some_iff] at hw hw'
        obtain ⟨x, hx, rfl⟩ := hw
        obtain ⟨x', hx', rfl⟩ := hw'
        simp only [singleton_append, List.cons.injEq] at heq
        rw [checkedU32_inj hx (heq.1 ▸ hx'), htail rfl heq.2]
      | true =>
        obtain ⟨a, b, rfl⟩ := hmu
        obtain ⟨a', b', rfl⟩ := hmv
        simp only [unitWords, Option.bind_eq_bind, Option.bind_eq_some_iff,
          Option.some.injEq] at hw hw'
        obtain ⟨x, hx, y, hy, rfl⟩ := hw
        obtain ⟨x', hx', y', hy', rfl⟩ := hw'
        simp only [cons_append, nil_append, List.cons.injEq] at heq
        rw [checkedU32_inj hx (heq.1 ▸ hx'), checkedU32_inj hy (heq.2.1 ▸ hy'), htail rfl heq.2.2]

/-- Keys whose chains are hashed over the same words have the same units. -/
theorem chainWords_inj {ps : Nat} (hps : 0 < ps) {m n : Nat} {us vs : List KeyUnit}
    {b b' : Bool} {W : List (List Nat)} (hu : OneMode b us) (hv : OneMode b' vs)
    (hlu : us.length = m * ps) (hlv : vs.length = n * ps) (h : chainWords ps m us = some W)
    (h' : chainWords ps n vs = some W) : us = vs := by
  induction m generalizing n us vs W with
  | zero =>
    simp only [chainWords, Option.some.injEq] at h
    subst h
    cases n with
    | zero =>
      have hus : us = [] := length_eq_zero_iff.mp (by simpa using hlu)
      have hvs : vs = [] := length_eq_zero_iff.mp (by simpa using hlv)
      rw [hus, hvs]
    | succ n =>
      simp [chainWords, Option.bind_eq_some_iff] at h'
  | succ m ih =>
    simp only [chainWords, Option.bind_eq_bind, Option.bind_eq_some_iff, Option.some.injEq] at h
    obtain ⟨ws, hws, rest, hrest, rfl⟩ := h
    cases n with
    | zero => simp [chainWords] at h'
    | succ n =>
      simp only [chainWords, Option.bind_eq_bind, Option.bind_eq_some_iff, Option.some.injEq,
        List.cons.injEq] at h'
      obtain ⟨ws', hws', rest', hrest', rfl, rfl⟩ := h'
      rw [Nat.add_mul, Nat.one_mul] at hlu hlv
      have htu : OneMode b (us.take ps) := fun x hx => hu x (mem_of_mem_take hx)
      have htv : OneMode b' (vs.take ps) := fun x hx => hv x (mem_of_mem_take hx)
      have hl₁ := pageWords_length htu hws
      have hl₂ := pageWords_length htv hws'
      rw [length_take, min_eq_left (by omega)] at hl₁ hl₂
      -- a page of pairs has twice the words of a page of tokens
      have hb : b = b' := by
        cases b <;> cases b' <;> simp at hl₁ hl₂ <;> first | rfl | omega
      subst hb
      rw [← take_append_drop ps us, ← take_append_drop ps vs,
        pageWords_inj htu htv hws hws',
        ih (fun x hx => hu x (mem_of_mem_drop hx)) (fun x hx => hv x (mem_of_mem_drop hx))
          (by rw [length_drop]; omega) (by rw [length_drop]; omega) hrest hrest']

theorem oneMode_units (k : RadixKey) : OneMode k.isBigram k.units := by
  intro u hu
  unfold RadixKey.units at hu
  split at hu
  · next h =>
    obtain ⟨i, hi, rfl⟩ := getElem_of_mem hu
    simp [h, bigrams]
  · next h =>
    obtain ⟨t, _, rfl⟩ := mem_map.mp hu
    simp [h]

/-! ## Section 3: The chain of a stored word -/

section Words

variable {cfg : CacheConfig}

def unitsOf (w : List Letter) : List KeyUnit := w.map Prod.snd

@[simp] theorem unitsOf_length (w : List Letter) : (unitsOf w).length = w.length := by
  simp [unitsOf]

theorem unitsOf_letters (key : RadixKey) : unitsOf key.letters = key.units := by
  simp [unitsOf, RadixKey.letters, Function.comp_def]

theorem eq_of_unitsOf_eq (ns : Option String) {p q : List Letter} (hp : ∀ l ∈ p, l.1 = ns)
    (hq : ∀ l ∈ q, l.1 = ns) (h : unitsOf p = unitsOf q) : p = q := by
  have hword : ∀ w : List Letter, (∀ l ∈ w, l.1 = ns) → w = (unitsOf w).map (ns, ·) := by
    intro w hw
    rw [unitsOf, map_map]
    refine (map_id w).symm.trans (map_congr_left fun l hl => ?_)
    rw [← hw l hl]
    rfl
  rw [hword p hp, hword q hq, h]

def chain (cfg : CacheConfig) (w : List Letter) : Option (List String) :=
  hashPages cfg (w.length / cfg.pageSize) (unitsOf w) none

/-- The hash a page is published under: that of the last page of its word. -/
def blockHash (cfg : CacheConfig) (p : List Letter) : Option Int :=
  ((chain cfg p).bind List.getLast?).map hashStrToInt64

variable {w : List Letter} {all : List String}

theorem chain_length (h : chain cfg w = some all) :
    all.length = w.length / cfg.pageSize := hashPages_length h

theorem chain_append {key : RadixKey} {all hs : List String}
    (hw : cfg.pageSize ∣ w.length) (h : chain cfg w = some all)
    (h' : hashPages cfg (key.len / cfg.pageSize) key.units (lastDigest all none) = some hs) :
    chain cfg (w ++ key.letters) = some (all ++ hs) := by
  have hlen : (unitsOf w).length = w.length / cfg.pageSize * cfg.pageSize := by
    rw [unitsOf_length, Nat.div_mul_cancel hw]
  have happ := hashPages_append hlen h h'
  have hdiv : (w ++ key.letters).length / cfg.pageSize =
      w.length / cfg.pageSize + key.len / cfg.pageSize := by
    rw [length_append, RadixKey.letters_length, Nat.add_div_of_dvd_right hw]
  have hunits : unitsOf (w ++ key.letters) = unitsOf w ++ key.units := by
    rw [← unitsOf_letters]
    simp [unitsOf]
  rw [chain, hdiv, hunits]
  exact happ

theorem chain_take {k : Nat} (hk : cfg.pageSize ∣ k)
    (hle : k ≤ w.length) (h : chain cfg w = some all) :
    chain cfg (w.take k) = some (all.take (k / cfg.pageSize)) := by
  have hsum : w.length / cfg.pageSize =
      k / cfg.pageSize + (w.length / cfg.pageSize - k / cfg.pageSize) := by
    have := Nat.div_le_div_right (c := cfg.pageSize) hle
    omega
  rw [chain, hsum] at h
  have hcut := (hashPages_split h).1
  rw [Nat.div_mul_cancel hk] at hcut
  rw [chain, length_take, min_eq_left hle]
  simpa [unitsOf, map_take] using hcut

theorem blockHash_take {j : Nat}
    (h : chain cfg w = some all) (hj : j < all.length) :
    blockHash cfg (w.take ((j + 1) * cfg.pageSize)) = some (hashStrToInt64 all[j]) := by
  have hps := cfg.pageSize_pos
  have hle : (j + 1) * cfg.pageSize ≤ w.length := by
    rw [chain_length h] at hj
    exact (Nat.le_div_iff_mul_le hps).mp hj
  rw [blockHash, chain_take (Nat.dvd_mul_left _ _) hle h, Nat.mul_div_cancel _ hps]
  simp [getLast?_take, hj]

theorem chainWords_of_hashPages {n : Nat} {us : List KeyUnit} {prior : Option String}
    {hs : List String} (h : hashPages cfg n us prior = some hs) :
    ∃ W, chainWords cfg.pageSize n us = some W := by
  induction n generalizing us prior hs with
  | zero => exact ⟨[], rfl⟩
  | succ n ih =>
    simp only [hashPages, Option.bind_eq_bind, Option.bind_eq_some_iff, Option.some.injEq] at h
    obtain ⟨words, hwords, rest, hrest, rfl⟩ := h
    obtain ⟨W, hW⟩ := ih hrest
    exact ⟨words :: W, by simp [chainWords, hwords, hW]⟩

end Words

end Sglang.MemCache
