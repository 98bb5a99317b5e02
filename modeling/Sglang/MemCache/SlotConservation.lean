import Sglang.MemCache.SlotOwnership

/-!
# Slot Conservation

No slot of the pool is lost or held twice: in every state of a run the slots of the allocator's
free pages, the values of the tree nodes, the un-cached tails of the live requests' rows and the
unused rests of their last pages are together the slots of the pool, each once.

- `KvInv.insertReq`: caching the tokens of a request moves the pages after the stored prefix from
  the request to the tree,
- `KvInv.step`, `KvInv.exec`: every step and every run keeps the invariant.
-/

namespace Sglang.MemCache

open List Function
open Lib
open RadixCache (RunInv SameSlots alignedKey alignedValue InsertResult)

/-! ## Section 1: Keys of requests -/

theorem letters_take_isPrefix (t : List Int) (e : Option String) (b : Bool) (m : Nat) :
    RadixKey.letters { tokenIds := t.take m, extraKey := e, isBigram := b } <+:
      RadixKey.letters { tokenIds := t, extraKey := e, isBigram := b } := by
  unfold RadixKey.letters
  refine List.IsPrefix.map _ ?_
  rw [RadixKey.units_of_limit_none rfl, RadixKey.units_of_limit_none rfl]
  dsimp only
  split
  · rw [bigrams_take]
    exact take_prefix _ _
  · rw [map_take]
    exact take_prefix _ _

namespace Req

variable {cfg : KvConfig} (r : Req) (n : Nat)

theorem radixKey_letters : (r.radixKey cfg n).letters <+: r.letters cfg := by
  unfold radixKey
  rw [RadixKey.letters_pageAligned]
  exact (List.take_prefix _ _).trans (letters_take_isPrefix _ _ _ _)

theorem radixKey_dvd : cfg.cache.pageSize ∣ (r.radixKey cfg n).len := by
  unfold radixKey
  rw [RadixKey.len_pageAligned]
  exact dvd_pageFloor _ _

theorem radixKey_len_le : (r.radixKey cfg n).len ≤ (r.tokenIds.take n).length := by
  unfold radixKey
  rw [RadixKey.len_pageAligned]
  refine (pageFloor_le _ _).trans ?_
  rw [RadixKey.len_eq]
  have := RadixKey.rawLen_le
    { tokenIds := r.tokenIds.take n, extraKey := r.extraKey, isBigram := cfg.cache.isEagle }
  split
  · exact (Nat.sub_le _ _).trans this
  · exact this

theorem alignedKey_radixKey :
    (alignedKey cfg.cache (r.radixKey cfg n)).letters = (r.radixKey cfg n).letters := by
  have hmode : (r.radixKey cfg n).isBigram = cfg.cache.isEagle := by
    unfold radixKey
    rw [RadixKey.pageAligned_isBigram]
  have hview : (r.radixKey cfg n).maybeToBigramView cfg.cache.isEagle = r.radixKey cfg n := by
    unfold RadixKey.maybeToBigramView
    rw [hmode]
    cases cfg.cache.isEagle <;> rfl
  rw [alignedKey, hview, RadixKey.letters_pageAligned, pageFloor_eq_self (r.radixKey_dvd n)]
  exact take_of_length_le (by simp)

theorem alignedKey_radixKey_len :
    (alignedKey cfg.cache (r.radixKey cfg n)).len = (r.radixKey cfg n).len := by
  have hletters : (alignedKey cfg.cache (r.radixKey cfg n)).letters = _ := r.alignedKey_radixKey n
  simpa using congrArg List.length hletters

end Req

/-! ## Section 2: Rows in slices -/

theorem pySlice_append_drop {α : Type} (l : List α) {a b : Nat} (h : a ≤ b) :
    l.drop a = pySlice l a b ++ l.drop b := by
  unfold pySlice
  conv_lhs => rw [← take_append_drop b l]
  rcases Nat.le_total b l.length with hb | hb
  · rw [drop_append_of_le_length (by rw [length_take]; omega)]
  · rw [drop_of_length_le hb, append_nil, append_nil]

theorem pySlice_of_take {α : Type} (l : List α) {a b n : Nat} (h : b ≤ n) :
    pySlice (l.take n) a b = pySlice l a b := by
  unfold pySlice
  rw [take_take, min_eq_left h]

theorem pySlice_whole {ps : Nat} (hps : 0 < ps) {row pgs : List Nat} (h : RowPages ps row pgs)
    {a b : Nat} (hab : a ≤ b) (hb : b * ps ≤ row.length) :
    pySlice row (a * ps) (b * ps) = expand ps (pySlice pgs a b) := by
  have htake := h.take hps hb
  have hrow : RowPages ps (row.take (b * ps)) (pgs.take b) := by
    rw [htake]
    exact .of_expand hps
  have hlen : (row.take (b * ps)).length = b * ps := by rw [length_take, min_eq_left hb]
  have hle : a * ps ≤ (row.take (b * ps)).length := by
    rw [hlen]
    exact Nat.mul_le_mul_right ps hab
  unfold pySlice
  refine (hrow.drop hps hle).eq_expand hps ?_
  rw [length_drop, hlen, ← Nat.sub_mul]
  exact Nat.dvd_mul_left _ _

theorem rowPages_slice {ps : Nat} (hps : 0 < ps) {row pgs : List Nat} (h : RowPages ps row pgs)
    {a n : Nat} (ha : a * ps ≤ n) (hn : n ≤ row.length) :
    RowPages ps ((row.take n).drop (a * ps)) (pySlice pgs a (pageCount ps n)) :=
  (h.shorten hps hn).drop hps (by rw [length_take, min_eq_left hn]; exact ha)

theorem coe_erase_add {locks : List Nat} {n : Nat} (h : n ∈ locks) :
    (locks.erase n : Multiset Nat) + {n} = locks := by
  rw [add_comm, Multiset.singleton_add, ← Multiset.coe_erase]
  exact Multiset.cons_erase (Multiset.mem_coe.mpr h)

namespace KvInv

variable {cfg : KvConfig} {s : KvState} {locks : List Nat}

/-! ## Section 3: Replacing one request -/

def others (cfg : KvConfig) (s : KvState) (i : Nat) : Multiset Nat :=
  nodeSum (ownedSlots cfg) (update s.reqs i none) cfg.maxReqs

theorem nodeSum_setReq {M : Type*} [AddCommMonoid M] {f : Option Req → M} (hf : f none = 0)
    (reqs : Nat → Option Req) {i n : Nat} (hi : i < n) (o : Option Req) :
    nodeSum f (update reqs i o) n = nodeSum f (update reqs i none) n + f o := by
  have h := nodeSum_update f (update reqs i none) hi o
  rwa [update_idem, update_self, hf, add_zero] at h

theorem pool_at (h : KvInv cfg s locks) {i : Nat} (hi : i < cfg.maxReqs) :
    s.allocator.slots cfg.pool + s.cache.view.treeSlots + ownedSlots cfg (s.reqs i) +
      others cfg s i = Allocator.poolSlots cfg.pool := by
  have hsum := nodeSum_setReq (f := ownedSlots cfg) rfl s.reqs hi (s.reqs i)
  rw [update_eq_self] at hsum
  rw [← h.pool, hsum, others]
  abel

/-- Replace one request, with cache, allocator and locks changed to match. -/
theorem replace (h : KvInv cfg s locks) {i : Nat} (hi : i < cfg.maxReqs) {c : RadixCache}
    {a : Allocator} {o : Option Req} {locks' : List Nat}
    (hrun : RunInv cfg.cache ⟨c, locks'⟩) (hwhole : c.view.WholePages cfg.cache.pageSize)
    (hkeeps : s.cache.view.Keeps locks c.view)
    (hlocks : (locks' : Multiset Nat) + reqLocks (s.reqs i) = (locks : Multiset Nat) + reqLocks o)
    (hok : ∀ r, o = some r → ReqOk cfg c.view r)
    (hpool : a.slots cfg.pool + c.view.treeSlots + ownedSlots cfg o + others cfg s i =
      Allocator.poolSlots cfg.pool) :
    KvInv cfg ({ s with cache := c, allocator := a }.setReq i o) locks' := by
  refine ⟨hrun, hwhole, ?_, ?_, ?_, ?_⟩
  · intro j r hj
    by_cases hji : j = i
    · exact hji ▸ hi
    · simp only [KvState.setReq, update_of_ne hji] at hj
      exact h.bound hj
  · have h₁ := nodeSum_setReq (f := reqLocks) rfl s.reqs hi (s.reqs i)
    have h₂ := nodeSum_setReq (f := reqLocks) rfl s.reqs hi o
    rw [update_eq_self] at h₁
    refine add_right_cancel (b := reqLocks (s.reqs i)) ?_
    rw [hlocks, h.locks_eq, KvState.setReq, h₁, h₂]
    abel
  · intro j r hj
    by_cases hji : j = i
    · subst hji
      simp only [KvState.setReq, update_self] at hj
      exact hok r hj
    · simp only [KvState.setReq, update_of_ne hji] at hj
      exact (h.req_ok hj).keeps hkeeps (h.mem_locks hj)
  · have h₂ := nodeSum_setReq (f := ownedSlots cfg) rfl s.reqs hi o
    rw [← hpool, KvState.setReq, h₂, others]
    abel

/-! ## Section 4: Caching the tokens of a request -/

/-- What inserting the first `n` tokens of a request does: the pages up to `prefixLen` are stored
already, the others move to the tree, and the whole key is stored. -/
structure Cached (cfg : KvConfig) (s : KvState) (locks : List Nat) (r : Req) (n : Nat)
    (c : RadixCache) (res : InsertResult) : Prop where
  run : RunInv cfg.cache ⟨c, locks⟩
  whole : c.view.WholePages cfg.cache.pageSize
  keeps : ∀ l, s.cache.view.Keeps l c.view
  protected_le : r.cacheProtectedLen ≤ res.prefixLen
  le_key : res.prefixLen ≤ (r.radixKey cfg n).len
  dvd : cfg.cache.pageSize ∣ res.prefixLen
  slots : c.view.treeSlots =
    s.cache.view.treeSlots + (pySlice r.row res.prefixLen (r.radixKey cfg n).len : List Nat)
  stored : ∃ node nd, c.view.core node = some nd ∧ c.view.word node = (r.radixKey cfg n).letters

theorem word_isPrefix (h : KvInv cfg s locks) {i : Nat} {r : Req} (hi : s.reqs i = some r) {n : Nat}
    (hprot : r.cacheProtectedLen ≤ (r.radixKey cfg n).len) :
    s.cache.view.word r.lastNode <+: (r.radixKey cfg n).letters := by
  refine prefix_of_prefix_length_le (h.req_ok hi).word (r.radixKey_letters n) ?_
  rw [RadixKey.letters_length, ← (h.req_ok hi).protected_eq]
  exact hprot

theorem insertReq (h : KvInv cfg s locks) (hdis : cfg.cache.disable = false) {i : Nat} {r : Req}
    (hi : s.reqs i = some r) {n : Nat} (hrow : n ≤ r.row.length)
    (htok : n ≤ r.tokenIds.length)
    (hprot : r.cacheProtectedLen ≤ (r.radixKey cfg n).len) (now priority : Int) (chunked : Bool) :
    ∃ c res, s.cache.insert cfg.cache now (r.radixKey cfg n)
        ((r.row.take (r.tokenIds.take n).length).take (r.radixKey cfg n).len) priority chunked =
          some (c, res) ∧
      (cfg.cache.enableKvCacheEvents = false → res.isSome) ∧
      ∀ x, res = some x → Cached cfg s locks r n c x := by
  have hps := cfg.cache.pageSize_pos
  have hok := h.req_ok hi
  have inv := h.run.tree
  have hlen : (r.tokenIds.take n).length = n := by rw [length_take, min_eq_left htok]
  have hkn : (r.radixKey cfg n).len ≤ n := (r.radixKey_len_le n).trans hlen.le
  have hval : (r.row.take (r.tokenIds.take n).length).take (r.radixKey cfg n).len =
      r.row.take (r.radixKey cfg n).len := by
    rw [hlen, take_take, min_eq_left hkn]
  rw [hval]
  obtain ⟨pgs, hpgs⟩ := hok.row
  obtain ⟨K, hK⟩ : cfg.cache.pageSize ∣ (r.radixKey cfg n).len := r.radixKey_dvd n
  rw [Nat.mul_comm] at hK
  have hsized : (r.row.take (r.radixKey cfg n).len).length =
      (alignedKey cfg.cache (r.radixKey cfg n)).len := by
    rw [r.alignedKey_radixKey_len, length_take, min_eq_left (hkn.trans hrow)]
  obtain ⟨c, res, heq, hins⟩ := RadixCache.insert_spec now priority chunked inv hdis hsized.ge
  refine ⟨c, res, heq, ?_, ?_⟩
  · intro hoff
    cases hins with
    | found => rfl
    | added _ _ _ _ _ _ _ hev =>
      simp only [RadixCache.recordStoreEvent, hoff, Bool.false_eq_true, if_false] at hev
      cases hev
      rfl
  intro x hx
  have hrun := h.run.inserted hdis hins
  have halen : (alignedKey cfg.cache (r.radixKey cfg n)).len = _ := r.alignedKey_radixKey_len n
  have hletters : (alignedKey cfg.cache (r.radixKey cfg n)).letters = _ := r.alignedKey_radixKey n
  have hword := h.word_isPrefix hi hprot
  cases hins with
  | @found _ node nd hre hnode hw =>
    cases hx
    have hsame := hre.sameSlots inv
    rw [hletters] at hw
    refine ⟨hrun, hsame.whole h.whole, hsame.keeps, ?_, ?_, ?_, ?_,
      node, _, RadixCache.core_at hnode, hw⟩
    · rw [halen]
      exact hprot
    · rw [halen]
    · rw [halen]
      exact r.radixKey_dvd n
    · rw [hsame.slots, halen, pySlice_eq_nil _ le_rfl]
      simp
  | @added s₁ s₂ _ _ _ _ ok node d nd rest hre hnode hang hw hd hadd hview hev =>
    have hok' : ok = true := by
      cases ok with
      | true => rfl
      | false => cases hx
    subst hok'
    cases hx
    have hsame := hre.sameSlots inv
    have inv₁ := hre.inv inv
    have hview' := (RadixCache.view_recordStoreEvent hev).trans hview
    rw [hletters] at hw
    rw [halen] at hd
    have hdlen : d = (s₁.view.word node).length := by
      have := congrArg List.length hw
      simp only [length_append, RadixKey.letters_length] at this
      omega
    have hddvd : cfg.cache.pageSize ∣ d := by
      rw [hdlen]
      exact inv₁.trie.word_dvd (TreeInv.trie_at hang.node_at)
    obtain ⟨D, hD⟩ := hddvd
    rw [Nat.mul_comm] at hD
    -- the new leaf holds the part of the row after the stored prefix
    have hslice : (alignedValue cfg.cache (r.radixKey cfg n)
        (r.row.take (r.radixKey cfg n).len)).drop d = pySlice r.row d (r.radixKey cfg n).len := by
      rw [RadixCache.alignedValue_eq, halen, take_take, min_self]
      rfl
    have hvwhole : ∃ qs, pySlice r.row d (r.radixKey cfg n).len = expand cfg.cache.pageSize qs := by
      rw [hK, hD]
      refine ⟨_, pySlice_whole hps hpgs ?_ ?_⟩
      · have : D * cfg.cache.pageSize ≤ K * cfg.cache.pageSize := by omega
        exact Nat.le_of_mul_le_mul_right this hps
      · rw [← hK]
        exact hkn.trans hrow
    rw [hslice] at hang hview'
    obtain ⟨hslots, hwhole, hkeeps⟩ :=
      RadixCache.treeSlots_addLeaf inv₁ hang (hsame.whole h.whole) hvwhole
    have hleaf := inv₁.addLeaf_new hang
    rw [← hview'] at hslots hwhole hkeeps hleaf
    refine ⟨hrun, hwhole, fun l => (hsame.keeps l).trans (hkeeps l), ?_, ?_, ?_, ?_,
      s₁.counter, _, hleaf, ?_⟩
    · -- the lookup goes at least as far as the request's own node
      obtain ⟨⟨c₁, hc₁⟩, hword₁, _⟩ := hsame.keeps locks _ (h.mem_locks hi) hok.live
      have hstop := RadixCache.Stops.of_rest inv₁ hang.node_at hang.dvd (.inr hang.free)
      have hle := hstop.maximal inv₁ hc₁ (u := s₁.view.word r.lastNode)
        (by rw [hw, hword₁]; exact hword) prefix_rfl
        (inv₁.trie.word_dvd (TreeInv.trie_at hc₁))
      change r.cacheProtectedLen ≤ d
      rw [hok.protected_eq, hdlen, ← hword₁]
      exact hle
    · change d ≤ _
      omega
    · exact ⟨D, by rw [Nat.mul_comm]; exact hD⟩
    · change _ = _ + ((pySlice r.row d _ : List Nat) : Multiset Nat)
      rw [hslots, hsame.slots]
    · rw [hview', show s₁.counter = s₁.view.counter from rfl, inv₁.word_addLeaf_new hang, hw]

/-! ## Section 5: Lookups -/

/-- `match_prefix` stops at a node that spells a prefix of the key, at its end if it is stored. -/
theorem matched {c : RadixCache} (h : RunInv cfg.cache ⟨c, locks⟩) (now : Int) (key : RadixKey) :
    ∃ t last n, c.matchPrefix cfg.cache now key = some (t, ⟨t.view.slots last, last⟩) ∧
      RunInv cfg.cache ⟨t, locks⟩ ∧ SameSlots cfg.cache c t ∧ t.view.core last = some n ∧
      t.view.word last <+: (alignedKey cfg.cache key).letters ∧
      ((∃ j m, c.view.core j = some m ∧ c.view.word j = (alignedKey cfg.cache key).letters) →
        t.view.word last = (alignedKey cfg.cache key).letters) := by
  have inv : TreeInv cfg.cache.pageSize c.view := h.tree
  cases hdis : cfg.cache.disable with
  | true =>
    obtain ⟨rn, hrn, _⟩ := inv.root_live
    have hroot : c.view.word c.view.rootNode = [] := inv.trie.word_root
    refine ⟨c, c.rootNode, rn, ?_, h, (RadixCache.Quiet.refl c).sameSlots, hrn, ?_, ?_⟩
    · rw [RadixCache.matchPrefix_disabled now c hdis, show c.view.slots c.rootNode = [] from
        inv.slots_root]
    · rw [show c.view.word c.rootNode = [] from hroot]
      exact nil_prefix
    · rintro ⟨j, m, hj, hw⟩
      rw [← hw, h.locks.disabled hdis hj]
      rfl
  | false =>
    obtain ⟨t, last, nl, heq, hre, hstop⟩ := RadixCache.matchPrefix_spec now inv hdis key
    have hsame := hre.sameSlots inv
    refine ⟨t, last, nl, heq, h.reshape hdis hre, hsame, hstop.node_at, hstop.prefix_of, ?_⟩
    rintro ⟨j, m, hj, hw⟩
    obtain ⟨⟨m', hm'⟩, hword, _⟩ := hsame.keeps [j] j (mem_singleton_self j) ⟨m, hj⟩
    have inv' := hre.inv inv
    have hle := hstop.maximal inv' hm' (u := t.view.word j) (by rw [hword, hw]) prefix_rfl
      (inv'.trie.word_dvd (TreeInv.trie_at hm'))
    rw [hword, hw] at hle
    exact hstop.prefix_of.eq_of_length_le hle

theorem slots_row {c : RadixCache} (h : RunInv cfg.cache ⟨c, locks⟩)
    (hwhole : c.view.WholePages cfg.cache.pageSize) {i : Nat} {n : NodeCore}
    (hi : c.view.core i = some n) :
    ∃ pgs, c.view.slots i = expand cfg.cache.pageSize pgs ∧
      (c.view.word i).length = pgs.length * cfg.cache.pageSize := by
  obtain ⟨pgs, hpgs⟩ := RadixCache.slots_whole h.tree hwhole hi
  refine ⟨pgs, hpgs, ?_⟩
  have hlen := TreeInv.slots_length h.tree hi
  rw [← hlen]
  change (c.view.slots i).length = _
  rw [hpgs, expand_length]

/-! ## Section 6: Steps of single requests -/

theorem newReq (h : KvInv cfg s locks) {i : Nat} (hi : i < cfg.maxReqs) (hnone : s.reqs i = none)
    (now : Int) (tokenIds : List Int) (extraKey : Option String) (priority : Int)
    (sessionId : Option String) (matchLen : Nat) :
    ∃ s' locks', s.newReq cfg now i tokenIds extraKey priority sessionId matchLen = some s' ∧
      KvInv cfg s' locks' := by
  obtain ⟨t, last, n, heq, hrun, hsame, hn, hword, _⟩ := matched h.run now
    { tokenIds := tokenIds.take matchLen, extraKey := extraKey }
  obtain ⟨u, delta, hlock, hrun', hsame'⟩ := hrun.lock hn
  have hall := hsame.trans hsame'
  obtain ⟨⟨n', hn'⟩, hw', hs'⟩ := hsame'.keeps [last] last (mem_singleton_self _) ⟨n, hn⟩
  have hwhole := hall.whole h.whole
  obtain ⟨pgs, hpgs, hlen⟩ := slots_row hrun' hwhole hn'
  rw [hs'] at hpgs
  rw [hw'] at hlen
  simp only [KvState.newReq, heq, hlock, Option.bind_eq_bind, Option.bind_some]
  -- the key looked up is a prefix of the key of all tokens
  have hkey : (alignedKey cfg.cache
      { tokenIds := tokenIds.take matchLen, extraKey := extraKey }).letters <+:
      RadixKey.letters
        { tokenIds := tokenIds, extraKey := extraKey, isBigram := cfg.cache.isEagle } := by
    have hview : RadixKey.maybeToBigramView
        { tokenIds := tokenIds.take matchLen, extraKey := extraKey } cfg.cache.isEagle =
        { tokenIds := tokenIds.take matchLen, extraKey := extraKey,
          isBigram := cfg.cache.isEagle } := by
      unfold RadixKey.maybeToBigramView
      cases cfg.cache.isEagle <;> rfl
    rw [alignedKey, hview, RadixKey.letters_pageAligned]
    exact (List.take_prefix _ _).trans (letters_take_isPrefix _ _ _ _)
  have hrow : RowPages cfg.cache.pageSize (t.view.slots last) pgs := by
    rw [hpgs]
    exact .of_expand cfg.cache.pageSize_pos
  have hslen : (t.view.slots last).length = (t.view.word last).length := by
    rw [hpgs, expand_length, hlen]
  have hok : ReqOk cfg u.view
      { tokenIds := tokenIds, extraKey := extraKey, priority := priority, sessionId := sessionId,
        row := t.view.slots last, cacheProtectedLen := (t.view.slots last).length,
        lastNode := last } := by
    refine ⟨⟨n', hn'⟩, ⟨pgs, hrow⟩, le_rfl, ?_, ?_, ?_⟩
    · rw [hw']
      exact hslen
    · rw [hs']
      exact take_length
    · rw [hw']
      exact hword.trans hkey
  refine ⟨_, last :: locks, rfl, h.replace hi hrun' hwhole (hall.keeps locks) ?_ ?_ ?_⟩
  · rw [hnone]
    simp only [reqLocks, add_zero]
    rw [add_comm, Multiset.singleton_add, Multiset.cons_coe]
  · intro r hr
    cases hr
    exact hok
  · have hpool := h.pool_at hi
    obtain ⟨k, hk, howned⟩ := hok.owned_eq hrun'.tree hrow
    have hkp : k = pgs.length := by
      change (t.view.slots last).length = _ at hk
      rw [hpgs, expand_length] at hk
      exact (Nat.eq_of_mul_eq_mul_right cfg.cache.pageSize_pos hk).symm
    rw [hkp, drop_length, expand_nil] at howned
    rw [hnone] at hpool
    simp only [ownedSlots, howned, Multiset.coe_nil, add_zero] at hpool ⊢
    rw [hall.slots]
    exact hpool

theorem appendTokens (h : KvInv cfg s locks) {i : Nat} {r : Req} (hi : s.reqs i = some r)
    (tokens : List Int) :
    KvInv cfg (s.setReq i (some { r with tokenIds := r.tokenIds ++ tokens })) locks := by
  have hok := h.req_ok hi
  refine h.replace (h.bound hi) h.run h.whole .refl ?_ ?_ ?_
  · rw [hi]
    rfl
  · rintro r' hr'
    cases hr'
    refine ⟨hok.live, hok.row, hok.protected_le, hok.protected_eq, hok.row_slots, ?_⟩
    refine hok.word.trans ?_
    have := letters_take_isPrefix (r.tokenIds ++ tokens) r.extraKey cfg.cache.isEagle
      r.tokenIds.length
    rwa [take_left] at this
  · have hpool := h.pool_at (h.bound hi)
    rwa [hi] at hpool

theorem abortReq (h : KvInv cfg s locks) {i : Nat} {r : Req} (hi : s.reqs i = some r)
    (hrow : r.row.length = r.cacheProtectedLen) :
    ∃ s' locks', s.abortReq cfg i = some s' ∧ KvInv cfg s' locks' := by
  have hok := h.req_ok hi
  have hmem := h.mem_locks hi
  obtain ⟨t, delta, heq, hrun, hsame⟩ := h.run.unlock hmem
  have heq : s.cache.decLockRef cfg.cache r.lastNode = some (t, delta) := heq
  simp only [KvState.abortReq, hi, heq, Option.bind_eq_bind, Option.bind_some]
  refine ⟨_, locks.erase r.lastNode, rfl,
    h.replace (h.bound hi) hrun (hsame.whole h.whole) (hsame.keeps locks) ?_ ?_ ?_⟩
  · rw [hi]
    simp only [reqLocks, add_zero]
    exact coe_erase_add hmem
  · rintro r' hr'
    cases hr'
  · obtain ⟨pgs, hpgs⟩ := hok.row
    obtain ⟨k, hk, howned⟩ := hok.owned_eq h.run.tree hpgs
    have hnil : pgs.drop k = [] := by
      refine drop_of_length_le ?_
      rw [hpgs.count, hrow, hk, pageCount_mul cfg.cache.pageSize_pos]
    have hpool := h.pool_at (h.bound hi)
    rw [hi] at hpool
    simp only [ownedSlots, howned, hnil, expand_nil, Multiset.coe_nil, add_zero] at hpool ⊢
    rw [hsame.slots]
    exact hpool

theorem owned_cut {pgs : List Nat} {k d K C : Nat} (hkd : k ≤ d) (hdK : d ≤ K) (hKC : K ≤ C)
    {ps : Nat} (hps : 0 < ps) :
    (expand ps (pgs.drop k) : Multiset Nat) =
      expand ps (pySlice pgs k d) + expand ps (pySlice pgs d K) + expand ps (pySlice pgs K C) +
        expand ps (pgs.drop C) := by
  rw [pySlice_append_drop pgs hkd, pySlice_append_drop pgs hdK, pySlice_append_drop pgs hKC,
    expand_append hps, expand_append hps, expand_append hps]
  simp only [← Multiset.coe_add]
  abel

/-- `release_kv_cache` frees the rest of the row after the committed pages. -/
theorem overallocated {a : Allocator} {row pgs : List Nat}
    (hrow : RowPages cfg.cache.pageSize row pgs) {commitLen : Nat} {M : Multiset Nat}
    (hpool : a.slots cfg.pool +
      expand cfg.cache.pageSize (pgs.drop (pageCount cfg.cache.pageSize commitLen)) + M =
        Allocator.poolSlots cfg.pool) :
    (if (if cfg.cache.pageSize > 1 then pageCeil cfg.cache.pageSize commitLen else commitLen) <
        row.length
      then a.free cfg.pool (row.drop
        (if cfg.cache.pageSize > 1 then pageCeil cfg.cache.pageSize commitLen else commitLen))
      else a).slots cfg.pool + M = Allocator.poolSlots cfg.pool := by
  have hps := cfg.cache.pageSize_pos
  have hstart : (if cfg.cache.pageSize > 1 then pageCeil cfg.cache.pageSize commitLen
      else commitLen) = pageCount cfg.cache.pageSize commitLen * cfg.cache.pageSize := by
    split
    · rfl
    · have hone : cfg.cache.pageSize = 1 := by omega
      have := pageCount_mul Nat.one_pos commitLen
      rw [Nat.mul_one] at this
      rw [hone, this, Nat.mul_one]
  rw [hstart]
  split
  · next hlt =>
    have hdrop := hrow.drop hps hlt.le
    rw [← cfg.page_eq] at hdrop hpool ⊢
    exact (Allocator.slots_free hdrop hpool).1
  · next hge =>
    have hnil : pgs.drop (pageCount cfg.cache.pageSize commitLen) = [] := by
      refine drop_of_length_le ?_
      rw [hrow.count]
      have h₁ := pageCount_mul_lt hps row.length
      have h₂ : pageCount cfg.cache.pageSize row.length * cfg.cache.pageSize <
          (pageCount cfg.cache.pageSize commitLen + 1) * cfg.cache.pageSize := by
        rw [Nat.add_mul, Nat.one_mul]
        omega
      exact Nat.lt_succ_iff.mp (Nat.lt_of_mul_lt_mul_right h₂)
    rw [hnil, expand_nil, Multiset.coe_nil, add_zero] at hpool
    exact hpool

/-- What `cache_finished_req` leaves: no lock, and of the row only the over-allocated pages. -/
structure Finished (cfg : KvConfig) (s : KvState) (locks : List Nat) (i : Nat) (r : Req)
    (left : List Nat) (s' : KvState) : Prop where
  reqs : s'.reqs = s.reqs
  run : RunInv cfg.cache ⟨s'.cache, locks.erase r.lastNode⟩
  whole : s'.cache.view.WholePages cfg.cache.pageSize
  keeps : s.cache.view.Keeps locks s'.cache.view
  pool : s'.allocator.slots cfg.pool + s'.cache.view.treeSlots + expand cfg.cache.pageSize left +
    others cfg s i = Allocator.poolSlots cfg.pool

theorem finishTail (h : KvInv cfg s locks) (hdis : cfg.cache.disable = false) {i : Nat} {r : Req}
    (hi : s.reqs i = some r) {c : RadixCache} {a : Allocator} {tail tailPgs left : List Nat}
    (hrun : RunInv cfg.cache ⟨c, locks⟩) (hwhole : c.view.WholePages cfg.cache.pageSize)
    (hkeeps : s.cache.view.Keeps locks c.view)
    (htail : RowPages cfg.cache.pageSize tail tailPgs)
    (hpool : a.slots cfg.pool + c.view.treeSlots + expand cfg.cache.pageSize tailPgs +
      expand cfg.cache.pageSize left + others cfg s i = Allocator.poolSlots cfg.pool)
    (now : Int) (key : RadixKey) (leaf : Option Nat) :
    ∃ c₁ c₂ delta, c.tagSessionLeaf cfg.cache now r.sessionId key leaf = some c₁ ∧
      c₁.decLockRef cfg.cache r.lastNode = some (c₂, delta) ∧
      Finished cfg s locks i r left
        { s with cache := c₂, allocator := a.free cfg.pool tail } := by
  obtain ⟨c₁, htag, hrun₁, hsame₁⟩ := hrun.tag now hdis r.sessionId key leaf
  obtain ⟨c₂, delta, hdec, hrun₂, hsame₂⟩ := hrun₁.unlock (h.mem_locks hi)
  have hsame := hsame₁.trans hsame₂
  refine ⟨c₁, c₂, delta, htag, hdec, rfl, hrun₂, hsame.whole hwhole,
    hkeeps.trans (hsame.keeps locks), ?_⟩
  rw [← cfg.page_eq] at htail hpool ⊢
  have hfree := (Allocator.slots_free (a := a) htail
    (M := c.view.treeSlots + expand cfg.pool.pageSize left + others cfg s i) (by
      rw [← hpool]
      abel)).1
  rw [hsame.slots, ← hfree]
  abel

/-- The slots of a finished request, cached or not, end up in the tree or with the allocator. -/
theorem cacheFinishedReq (h : KvInv cfg s locks) {i : Nat} {r : Req} (hi : s.reqs i = some r)
    {pgs : List Nat} (hpgs : RowPages cfg.cache.pageSize r.row pgs) {commitLen : Nat}
    (htok : commitLen ≤ r.tokenIds.length) (hrow : commitLen ≤ r.row.length)
    (hprot : r.cacheProtectedLen ≤ (r.radixKey cfg commitLen).len) (now : Int) (isInsert : Bool) :
    (cfg.cache.enableKvCacheEvents = false →
        (s.cacheFinishedReq cfg now r commitLen isInsert).isSome) ∧
      ∀ s', s.cacheFinishedReq cfg now r commitLen isInsert = some s' →
        Finished cfg s locks i r (pgs.drop (pageCount cfg.cache.pageSize commitLen)) s' := by
  have hps := cfg.cache.pageSize_pos
  have hok := h.req_ok hi
  obtain ⟨k, hk, howned⟩ := hok.owned_eq h.run.tree hpgs
  have hpool := h.pool_at (h.bound hi)
  rw [hi, ownedSlots, howned] at hpool
  have hlen : (r.tokenIds.take commitLen).length = commitLen := by
    rw [length_take, min_eq_left htok]
  have hkn : (r.radixKey cfg commitLen).len ≤ commitLen := (r.radixKey_len_le _).trans hlen.le
  obtain ⟨K, hK⟩ := r.radixKey_dvd commitLen
  rw [Nat.mul_comm] at hK
  have hKC : K ≤ pageCount cfg.cache.pageSize commitLen :=
    le_pageCount hps (by rw [← hK]; exact hkn)
  unfold KvState.cacheFinishedReq
  cases hdis : cfg.cache.disable with
  | true =>
    simp only [if_true, Option.isSome_some, implies_true, true_and, Option.some.injEq]
    rintro s' rfl
    obtain ⟨t, delta, hdec, hrun, _⟩ := h.run.unlock (h.mem_locks hi)
    have hsame : t = s.cache := by
      simp only [RadixCache.decLockRef, hdis, if_true, Option.some.injEq, Prod.mk.injEq] at hdec
      exact hdec.1.symm
    rw [hsame] at hrun
    refine ⟨rfl, hrun, h.whole, .refl, ?_⟩
    -- a disabled cache protects nothing
    have hk0 : k = 0 := by
      obtain ⟨n, hn⟩ := hok.live
      have hroot : s.cache.view.word r.lastNode = [] := by
        rw [h.run.locks.disabled hdis hn]
        exact h.run.tree.trie.word_root
      have := hok.protected_eq
      rw [hroot, hk, length_nil] at this
      rcases Nat.mul_eq_zero.mp this with h | h
      · exact h
      · omega
    have hslice := rowPages_slice hps hpgs (a := 0) (by omega) hrow
    rw [Nat.zero_mul, drop_zero] at hslice
    rw [hk0, pySlice_append_drop pgs (Nat.zero_le (pageCount cfg.cache.pageSize commitLen)),
      expand_append hps, ← Multiset.coe_add] at hpool
    rw [← cfg.page_eq] at hslice hpool ⊢
    have hfree := (Allocator.slots_free (a := s.allocator) hslice
      (M := s.cache.view.treeSlots +
        expand cfg.pool.pageSize (pgs.drop (pageCount cfg.pool.pageSize commitLen)) +
        others cfg s i) (by rw [← hpool]; abel)).1
    rw [← hfree]
    abel
  | false =>
    simp only [Bool.false_eq_true, if_false, hlen]
    have hdropKey : RowPages cfg.cache.pageSize
        ((r.row.take commitLen).drop (r.radixKey cfg commitLen).len)
        (pySlice pgs K (pageCount cfg.cache.pageSize commitLen)) := by
      rw [hK]
      exact rowPages_slice hps hpgs (by rw [← hK]; exact hkn) hrow
    -- freeing the row from the protected part up to a page boundary
    have hfree : ∀ {d : Nat} (c : RadixCache), k ≤ d → d ≤ K →
        c.view.treeSlots = s.cache.view.treeSlots +
          (expand cfg.cache.pageSize (pySlice pgs d K) : List Nat) →
        (s.allocator.free cfg.pool (pySlice (r.row.take commitLen) r.cacheProtectedLen
            (d * cfg.cache.pageSize))).slots cfg.pool + c.view.treeSlots +
          expand cfg.cache.pageSize (pySlice pgs K (pageCount cfg.cache.pageSize commitLen)) +
          expand cfg.cache.pageSize (pgs.drop (pageCount cfg.cache.pageSize commitLen)) +
          others cfg s i = Allocator.poolSlots cfg.pool := by
      intro d c hkd hdK hslots
      have hdn : d * cfg.cache.pageSize ≤ commitLen :=
        (Nat.mul_le_mul_right _ hdK).trans (by rw [← hK]; exact hkn)
      have hrowd : RowPages cfg.cache.pageSize (pySlice (r.row.take commitLen) r.cacheProtectedLen
          (d * cfg.cache.pageSize)) (pySlice pgs k d) := by
        rw [pySlice_of_take _ hdn, hk, pySlice_whole hps hpgs hkd (hdn.trans hrow)]
        exact .of_expand hps
      rw [owned_cut hkd hdK hKC hps] at hpool
      rw [hslots]
      rw [← cfg.page_eq] at hrowd hpool ⊢
      have := (Allocator.slots_free (a := s.allocator) hrowd
        (M := s.cache.view.treeSlots + expand cfg.pool.pageSize (pySlice pgs d K) +
          expand cfg.pool.pageSize (pySlice pgs K (pageCount cfg.pool.pageSize commitLen)) +
          expand cfg.pool.pageSize (pgs.drop (pageCount cfg.pool.pageSize commitLen)) +
          others cfg s i) (by rw [← hpool]; abel)).1
      rw [← this]
      abel
    cases hins : isInsert && !cfg.cache.disableFinishedInsert with
    | true =>
      obtain ⟨c, res, heq, hsome, hcached⟩ :=
        h.insertReq hdis hi hrow htok hprot now r.priority false
      rw [hlen] at heq
      simp only [if_true, heq, Option.bind_eq_bind, Option.bind_some]
      cases res with
      | none =>
        simp only [Option.bind_none, Option.isSome_none]
        exact ⟨fun hoff => hsome hoff, fun _ hs' => by cases hs'⟩
      | some x =>
        have hc := hcached x rfl
        obtain ⟨d, hd⟩ := hc.dvd
        rw [Nat.mul_comm] at hd
        have hkd : k ≤ d := by
          have := hc.protected_le
          rw [hk, hd] at this
          exact Nat.le_of_mul_le_mul_right this hps
        have hdK : d ≤ K := by
          have := hc.le_key
          rw [hK, hd] at this
          exact Nat.le_of_mul_le_mul_right this hps
        have hslots : c.view.treeSlots = s.cache.view.treeSlots +
            (expand cfg.cache.pageSize (pySlice pgs d K) : List Nat) := by
          rw [hc.slots, hd, hK, pySlice_whole hps hpgs hdK (by rw [← hK]; exact hkn.trans hrow)]
        have hp := hfree c hkd hdK hslots
        rw [← hd] at hp
        obtain ⟨c₁, c₂, delta, htag, hdec, hfin⟩ := h.finishTail hdis hi hc.run hc.whole
          (hc.keeps locks) hdropKey hp now (r.radixKey cfg commitLen) x.lastDeviceNode
        simp only [Option.bind_some, htag, hdec, Option.isSome_some, implies_true, true_and,
          Option.some.injEq]
        rintro s' rfl
        exact hfin
    | false =>
      simp only [Bool.false_eq_true, if_false, Option.bind_eq_bind, Option.bind_some]
      have hkK : k ≤ K := by
        rw [hk, hK] at hprot
        exact Nat.le_of_mul_le_mul_right hprot hps
      have hp := hfree s.cache hkK le_rfl (by rw [pySlice_eq_nil _ le_rfl, expand_nil]; simp)
      rw [← hK] at hp
      obtain ⟨c₁, c₂, delta, htag, hdec, hfin⟩ := h.finishTail hdis hi h.run h.whole .refl
        hdropKey hp now (r.radixKey cfg commitLen) none
      simp only [htag, hdec, Option.bind_some, Option.isSome_some, implies_true, true_and,
        Option.some.injEq]
      rintro s' rfl
      exact hfin

theorem releaseKvCache (h : KvInv cfg s locks) {i : Nat} {r : Req} (hi : s.reqs i = some r)
    {commitLen : Nat} (htok : commitLen ≤ r.tokenIds.length) (hrow : commitLen ≤ r.row.length)
    (hprot : r.cacheProtectedLen ≤ (r.radixKey cfg commitLen).len) (now : Int) (isInsert : Bool) :
    (cfg.cache.enableKvCacheEvents = false →
        (s.releaseKvCache cfg now i commitLen isInsert).isSome) ∧
      ∀ s', s.releaseKvCache cfg now i commitLen isInsert = some s' →
        ∃ locks', KvInv cfg s' locks' := by
  obtain ⟨pgs, hpgs⟩ := (h.req_ok hi).row
  obtain ⟨hsome, hfin⟩ := h.cacheFinishedReq hi hpgs htok hrow hprot now isInsert
  simp only [KvState.releaseKvCache, hi, Option.bind_eq_bind, Option.bind_some]
  cases hres : s.cacheFinishedReq cfg now r commitLen isInsert with
  | none =>
    rw [hres] at hsome
    exact ⟨fun hoff => absurd (hsome hoff) (by simp), by simp⟩
  | some s₁ =>
    simp only [Option.bind_some, Option.isSome_some, implies_true, true_and, Option.some.injEq]
    rintro s' rfl
    have hf := hfin s₁ hres
    have hmem := h.mem_locks hi
    have hover := overallocated (a := s₁.allocator) hpgs
      (M := s₁.cache.view.treeSlots + others cfg s i) (by rw [← hf.pool]; abel)
    have hreqs : s₁ = { s with cache := s₁.cache, allocator := s₁.allocator } := by
      rw [← hf.reqs]
    rw [hreqs]
    refine ⟨locks.erase r.lastNode,
      h.replace (h.bound hi) (o := none) hf.run hf.whole hf.keeps ?_ ?_ ?_⟩
    · rw [hi]
      simp only [reqLocks, add_zero]
      exact coe_erase_add hmem
    · rintro r' hr'
      cases hr'
    · rw [← hover]
      simp only [ownedSlots, add_zero]
      abel

theorem slots_take {c : RadixCache} (h : RunInv cfg.cache ⟨c, locks⟩) {i j : Nat}
    {n m : NodeCore} (hi : c.view.core i = some n) (hj : c.view.core j = some m)
    (hword : c.view.word i <+: c.view.word j) :
    (c.view.slots j).take (c.view.word i).length = c.view.slots i := by
  have inv : TreeInv cfg.cache.pageSize c.view := h.tree
  have hagree := inv.trie.spells_agree inv.spells_slots
    (fun k ck hk => by
      obtain ⟨nk, hnk, _⟩ := skeleton_some hk
      exact inv.slots_length hnk)
    (TreeInv.trie_at hj) (TreeInv.trie_at hi) hword prefix_rfl
    (inv.trie.word_dvd (TreeInv.trie_at hi))
  rw [hagree]
  exact take_of_length_le (inv.slots_length hi).le

theorem cacheUnfinishedReq (h : KvInv cfg s locks) {i : Nat} {r : Req} (hi : s.reqs i = some r)
    {fillLen : Nat} (htok : fillLen ≤ r.tokenIds.length) (hrow : fillLen ≤ r.row.length)
    (hprot : r.cacheProtectedLen ≤ (r.radixKey cfg fillLen).len) (now : Int) (chunked : Bool) :
    (cfg.cache.enableKvCacheEvents = false →
        (s.cacheUnfinishedReq cfg now i fillLen chunked).isSome) ∧
      ∀ s', s.cacheUnfinishedReq cfg now i fillLen chunked = some s' →
        ∃ locks', KvInv cfg s' locks' := by
  cases hdis : cfg.cache.disable with
  | true =>
    simp only [KvState.cacheUnfinishedReq, hi, hdis, Option.bind_eq_bind, Option.bind_some, if_true,
      Option.isSome_some, implies_true, true_and, Option.some.injEq]
    rintro s' rfl
    exact ⟨locks, h⟩
  | false =>
    have hps := cfg.cache.pageSize_pos
    have hok := h.req_ok hi
    have hlen : (r.tokenIds.take fillLen).length = fillLen := by
      rw [length_take, min_eq_left htok]
    have hkn : (r.radixKey cfg fillLen).len ≤ fillLen := (r.radixKey_len_le _).trans hlen.le
    obtain ⟨c, res, heq, hsome, hcached⟩ :=
      h.insertReq hdis hi hrow htok hprot now r.priority chunked
    simp only [KvState.cacheUnfinishedReq, hi, hdis, heq, Option.bind_eq_bind, Option.bind_some,
      Bool.false_eq_true, if_false]
    cases res with
    | none =>
      simp only [Option.bind_none, Option.isSome_none]
      exact ⟨fun hoff => hsome hoff, fun _ hs' => by cases hs'⟩
    | some x =>
      have hc := hcached x rfl
      -- the key has just been stored, so the lookup finds all of it
      obtain ⟨t, last, nl, hmatch, hrun, hsame, hlast, _, hstored⟩ :=
        matched hc.run now (r.radixKey cfg fillLen)
      rw [r.alignedKey_radixKey] at hstored
      have hword : t.view.word last = (r.radixKey cfg fillLen).letters := by
        obtain ⟨node, nd, hnode, hw⟩ := hc.stored
        exact hstored ⟨node, nd, hnode, hw⟩
      have hslen : (t.view.slots last).length = (r.radixKey cfg fillLen).len := by
        have inv : TreeInv cfg.cache.pageSize t.view := hrun.tree
        rw [inv.slots_length hlast, hword, RadixKey.letters_length]
      obtain ⟨t₁, δ₁, hdec, hrun₁, hsame₁⟩ := hrun.unlock (h.mem_locks hi)
      obtain ⟨⟨n₁, hn₁⟩, _, _⟩ :=
        hsame₁.keeps [last] last (mem_singleton_self _) ⟨nl, hlast⟩
      obtain ⟨t₂, δ₂, hinc, hrun₂, hsame₂⟩ := hrun₁.lock hn₁
      obtain ⟨t₃, htag, hrun₃, hsame₃⟩ :=
        hrun₂.tag now hdis r.sessionId (r.radixKey cfg fillLen) (some last)
      have hafter := (hsame₁.trans hsame₂).trans hsame₃
      simp only [Option.bind_some, hmatch, hslen, if_true, hdec, hinc, htag, Option.isSome_some,
        implies_true, true_and, Option.some.injEq, hlen]
      rintro s' rfl
      have hall := hsame.trans hafter
      have hwhole := hall.whole hc.whole
      have hkeeps := (hc.keeps locks).trans (hall.keeps locks)
      -- nodes, words and slots are those of the lookup
      obtain ⟨⟨n₃, hn₃⟩, hw₃, hs₃⟩ :=
        hafter.keeps [last] last (mem_singleton_self _) ⟨nl, hlast⟩
      obtain ⟨⟨m₃, hm₃⟩, hmw, hms⟩ := hkeeps _ (h.mem_locks hi) hok.live
      obtain ⟨qs, hqs, hqlen⟩ := slots_row hrun₃ hwhole hn₃
      rw [hs₃] at hqs
      rw [hw₃, hword, RadixKey.letters_length] at hqlen
      obtain ⟨pgs, hpgs⟩ := hok.row
      obtain ⟨k, hk, howned⟩ := hok.owned_eq h.run.tree hpgs
      obtain ⟨d, hd⟩ := hc.dvd
      rw [Nat.mul_comm] at hd
      have hkd : k ≤ d := by
        have := hc.protected_le
        rw [hk, hd] at this
        exact Nat.le_of_mul_le_mul_right this hps
      have hdK : d ≤ qs.length := by
        have := hc.le_key
        rw [hqlen, hd] at this
        exact Nat.le_of_mul_le_mul_right this hps
      have hKrow : qs.length * cfg.cache.pageSize ≤ r.row.length := by
        rw [← hqlen]
        exact hkn.trans hrow
      -- what was protected already is what the tree holds along the longer path, too
      have hfront : r.row.take r.cacheProtectedLen ++
          (t.view.slots last).drop r.cacheProtectedLen = t.view.slots last := by
        have htake := slots_take hrun₃ hm₃ hn₃ (by
          rw [hmw, hw₃, hword]
          exact h.word_isPrefix hi hprot)
        rw [hmw, ← hok.protected_eq, hs₃, hms] at htake
        rw [hok.row_slots, ← htake, take_append_drop]
      have hrow' : RowPages cfg.cache.pageSize
          (r.row.take r.cacheProtectedLen ++ (t.view.slots last).drop r.cacheProtectedLen ++
            r.row.drop (r.radixKey cfg fillLen).len) (qs ++ pgs.drop qs.length) := by
        rw [hfront, hqs, hqlen]
        exact (hpgs.drop hps hKrow).append hps
      have hok' : ReqOk cfg t₃.view
          { r with
            row := r.row.take r.cacheProtectedLen ++
              (t.view.slots last).drop r.cacheProtectedLen ++
              r.row.drop (r.radixKey cfg fillLen).len
            cacheProtectedLen := (r.radixKey cfg fillLen).len
            lastNode := last } := by
        refine ⟨⟨n₃, hn₃⟩, ⟨_, hrow'⟩, ?_, ?_, ?_, ?_⟩
        · change (r.radixKey cfg fillLen).len ≤ (_ ++ _ : List Nat).length
          rw [hfront, length_append, hslen]
          omega
        · rw [hw₃, hword, RadixKey.letters_length]
        · change (_ ++ _ : List Nat).take _ = _
          rw [hfront, hs₃]
          exact take_left' hslen
        · rw [hw₃, hword]
          exact r.radixKey_letters fillLen
      refine ⟨last :: locks.erase r.lastNode,
        h.replace (h.bound hi) hrun₃ hwhole hkeeps ?_ ?_ ?_⟩
      · rw [hi]
        simp only [reqLocks]
        rw [← Multiset.cons_coe, ← Multiset.singleton_add, add_assoc,
          coe_erase_add (h.mem_locks hi), add_comm]
      · rintro r' hr'
        cases hr'
        exact hok'
      · have hpool := h.pool_at (h.bound hi)
        rw [hi, ownedSlots, howned, owned_cut hkd hdK le_rfl hps, pySlice_eq_nil pgs le_rfl,
          expand_nil, Multiset.coe_nil, add_zero] at hpool
        obtain ⟨k', hk', howned'⟩ := hok'.owned_eq hrun₃.tree hrow'
        have hkq : k' = qs.length := by
          change (r.radixKey cfg fillLen).len = _ at hk'
          rw [hqlen] at hk'
          exact (Nat.eq_of_mul_eq_mul_right hps hk').symm
        rw [hkq, drop_left] at howned'
        have hfreed : RowPages cfg.cache.pageSize
            (pySlice (r.row.take fillLen) r.cacheProtectedLen x.prefixLen) (pySlice pgs k d) := by
          have hdn : d * cfg.cache.pageSize ≤ fillLen := by
            rw [← hd]
            exact hc.le_key.trans hkn
          rw [hd, pySlice_of_take _ hdn, hk, pySlice_whole hps hpgs hkd (hdn.trans hrow)]
          exact .of_expand hps
        have hmoved : c.view.treeSlots = s.cache.view.treeSlots +
            (expand cfg.cache.pageSize (pySlice pgs d qs.length) : List Nat) := by
          rw [hc.slots, hd, hqlen, pySlice_whole hps hpgs hdK hKrow]
        rw [ownedSlots, howned', hall.slots, hmoved]
        rw [← cfg.page_eq] at hpool hfreed ⊢
        have hfree := (Allocator.slots_free (a := s.allocator) hfreed
          (M := s.cache.view.treeSlots + expand cfg.pool.pageSize (pySlice pgs d qs.length) +
            expand cfg.pool.pageSize (pgs.drop qs.length) + others cfg s i)
          (by rw [← hpool]; abel)).1
        rw [← hfree]
        abel

/-! ## Section 7: Allocation -/

theorem allocator_congr (h : KvInv cfg s locks) {a : Allocator}
    (ha : (a.pages cfg.pool).Perm (s.allocator.pages cfg.pool)) :
    KvInv cfg { s with allocator := a } locks := by
  refine ⟨h.run, h.whole, h.bound, h.locks_eq, h.req_ok, ?_⟩
  rw [Allocator.slots_congr ha]
  exact h.pool

theorem extendRow (h : KvInv cfg s locks) {i : Nat} {r : Req} (hi : s.reqs i = some r)
    {out chunk : List Nat} {a : Allocator}
    (hcont : ∀ pgs, RowPages cfg.cache.pageSize r.row pgs →
      RowPages cfg.cache.pageSize (r.row ++ out) (pgs ++ chunk))
    (ha : (chunk ++ a.pages cfg.pool).Perm (s.allocator.pages cfg.pool)) :
    KvInv cfg ({ s with allocator := a }.setReq i (some { r with row := r.row ++ out })) locks := by
  have hps := cfg.cache.pageSize_pos
  have hok := h.req_ok hi
  obtain ⟨pgs, hpgs⟩ := hok.row
  have hrow := hcont pgs hpgs
  have hok' : ReqOk cfg s.cache.view { r with row := r.row ++ out } := by
    refine ⟨hok.live, ⟨_, hrow⟩, ?_, hok.protected_eq, ?_, hok.word⟩
    · change _ ≤ (_ ++ _ : List Nat).length
      rw [length_append]
      exact hok.protected_le.trans (Nat.le_add_right _ _)
    · change (_ ++ _ : List Nat).take _ = _
      rw [take_append_of_le_length hok.protected_le]
      exact hok.row_slots
  refine h.replace (h.bound hi) h.run h.whole .refl ?_ ?_ ?_
  · rw [hi]
    rfl
  · rintro r' hr'
    cases hr'
    exact hok'
  · have hpool := h.pool_at (h.bound hi)
    obtain ⟨k, hk, howned⟩ := hok.owned_eq h.run.tree hpgs
    obtain ⟨k', hk', howned'⟩ := hok'.owned_eq h.run.tree hrow
    have hkk : k' = k := by
      have hk' : r.cacheProtectedLen = k' * cfg.cache.pageSize := hk'
      rw [hk] at hk'
      exact (Nat.eq_of_mul_eq_mul_right hps hk').symm
    have hle : k ≤ pgs.length := by
      rw [hpgs.count]
      exact le_pageCount hps (by rw [← hk]; exact hok.protected_le)
    have hslots : s.allocator.slots cfg.pool =
        a.slots cfg.pool + expand cfg.cache.pageSize chunk := by
      rw [← cfg.page_eq]
      exact Allocator.slots_append (ha.symm.trans perm_append_comm)
    rw [hi, ownedSlots, howned, hslots] at hpool
    rw [ownedSlots, howned', hkk, drop_append_of_le_length hle, expand_append hps,
      ← Multiset.coe_add, ← hpool]
    abel

theorem batchRows_congr {s t : KvState} :
    ∀ {is : List Nat}, (∀ i ∈ is, s.reqs i = t.reqs i) → s.batchRows is = t.batchRows is := by
  intro is
  induction is with
  | nil =>
    intro _
    rfl
  | cons i is ih =>
    intro h
    rw [KvState.batchRows, KvState.batchRows, h i (mem_cons_self ..),
      ih fun j hj => h j (mem_cons_of_mem _ hj)]

/-- The rows of a batch of distinct requests, one after the other. -/
theorem writeRows {a : Allocator} {rows outs : List (List Nat)} {pages : List Nat}
    (hcont : Allocator.Continued cfg.cache.pageSize rows outs pages) :
    ∀ {s : KvState} {is : List Nat}, KvInv cfg s locks → s.batchRows is = some rows → is.Nodup →
      (pages ++ a.pages cfg.pool).Perm (s.allocator.pages cfg.pool) →
      KvInv cfg ({ s with allocator := a }.writeRows is outs) locks := by
  induction hcont with
  | nil =>
    intro s is h _ _ ha
    cases is <;> exact h.allocator_congr ha
  | @cons row out chunk rows outs pages hrow rest ih =>
    intro s is h hrows hnodup ha
    cases is with
    | nil => cases hrows
    | cons i is =>
      obtain ⟨hi, hnodup⟩ := nodup_cons.mp hnodup
      cases hreq : s.reqs i with
      | none => simp [KvState.batchRows, hreq] at hrows
      | some r =>
        cases hrest : s.batchRows is with
        | none => simp [KvState.batchRows, hreq, hrest] at hrows
        | some rows' =>
          simp only [KvState.batchRows, hreq, hrest, Option.bind_eq_bind, Option.bind_some,
            Option.some.injEq, List.cons.injEq] at hrows
          obtain ⟨rfl, rfl⟩ := hrows
          -- the pages of the other requests wait with the allocator
          let b : Allocator := { a with freePages := pages ++ a.freePages }
          have hb : b.pages cfg.pool = pages ++ a.pages cfg.pool := by
            simp only [b, Allocator.pages, append_assoc]
          have hnext := h.extendRow hreq (a := b) hrow (by
            rw [hb, ← append_assoc]
            exact ha)
          have hothers : ∀ (t : KvState) o, t.reqs = s.reqs →
              (t.setReq i o).batchRows is = some rows' := by
            intro t o ht
            refine (batchRows_congr fun j hj => ?_).trans hrest
            have hji : j ≠ i := by
              rintro rfl
              exact hi hj
            rw [KvState.setReq, ht]
            exact update_of_ne hji _ _
          have := ih hnext (hothers _ _ rfl) hnodup (by rw [← hb]; exact .refl _)
          rw [KvState.writeRows]
          simp only [hreq, Option.map_some]
          exact this

theorem batchRows_live {s : KvState} : ∀ {is : List Nat}, (∀ i ∈ is, s.LiveReq i fun _ => True) →
    ∃ rows, s.batchRows is = some rows ∧ rows.length = is.length := by
  intro is
  induction is with
  | nil =>
    intro _
    exact ⟨[], rfl, rfl⟩
  | cons i is ih =>
    intro hlive
    obtain ⟨rows, hrows, hlen⟩ := ih fun j hj => hlive j (mem_cons_of_mem _ hj)
    have hi := hlive i (mem_cons_self ..)
    cases hreq : s.reqs i with
    | none => simp [KvState.LiveReq, hreq] at hi
    | some r =>
      exact ⟨r.row :: rows, by simp [KvState.batchRows, hreq, hrows], by simp [hlen]⟩

theorem extendReqs_continues {rows : List (List Nat)} :
    ∀ {lens : List Nat}, rows.length = lens.length →
      List.Forall₂ Allocator.ExtendReq.Continues rows (KvState.extendReqs rows lens) := by
  induction rows with
  | nil =>
    intro lens hlen
    simp [KvState.extendReqs]
  | cons row rows ih =>
    intro lens hlen
    cases lens with
    | nil => cases hlen
    | cons n lens =>
      refine .cons ⟨rfl, Nat.le_add_right _ _, rfl⟩ (ih ?_)
      simpa using hlen

theorem extendReqs_decodes {rows : List (List Nat)} :
    List.Forall₂ Allocator.ExtendReq.Decodes rows
      (KvState.extendReqs rows (List.replicate rows.length 1)) := by
  induction rows with
  | nil => exact .nil
  | cons row rows ih => exact .cons ⟨⟨rfl, Nat.le_add_right _ _, rfl⟩, rfl⟩ ih

theorem settle (h : KvInv cfg s locks) {is : List Nat} {rows : List (List Nat)}
    (hrows : s.batchRows is = some rows) (hnodup : is.Nodup)
    {res : Allocator × Option (List (List Nat))} {a : Allocator}
    (hres : (res = (a, none) ∧ (a.pages cfg.pool).Perm (s.allocator.pages cfg.pool)) ∨
      ∃ outs pgs, res = (a, some outs) ∧ Allocator.Continued cfg.cache.pageSize rows outs pgs ∧
        (pgs ++ a.pages cfg.pool).Perm (s.allocator.pages cfg.pool)) :
    KvInv cfg (s.settle is res) locks := by
  rcases hres with ⟨rfl, ha⟩ | ⟨outs, pgs, rfl, hcont, ha⟩
  · exact h.allocator_congr ha
  · exact writeRows hcont h hrows hnodup ha

theorem settle_alloc (h : KvInv cfg s locks) (hone : cfg.cache.pageSize = 1) {is lens : List Nat}
    {rows : List (List Nat)} (hrows : s.batchRows is = some rows) (hnodup : is.Nodup)
    (hlen : rows.length = lens.length) :
    KvInv cfg (s.settle is ((s.allocator.alloc cfg.pool lens.sum).1,
      (s.allocator.alloc cfg.pool lens.sum).2.map (Allocator.sliceBy lens))) locks := by
  have hpool : cfg.pool.pageSize = 1 := cfg.page_eq.trans hone
  obtain ⟨a, _, hres⟩ := Allocator.alloc_spec s.allocator (k := lens.sum)
  rw [hpool, Nat.mul_one] at hres
  refine h.settle hrows hnodup (a := a) ?_
  rcases hres with ⟨heq, ha⟩ | ⟨pgs, hpgs, heq, ha⟩
  · exact .inl ⟨by rw [heq]; rfl, ha⟩
  · refine .inr ⟨Allocator.sliceBy lens pgs, pgs, ?_, ?_, ha⟩
    · rw [heq, expand_one]
      rfl
    · rw [hone]
      exact Allocator.sliceBy_continued hlen hpgs

theorem allocForExtend (h : KvInv cfg s locks) {is lens : List Nat} (hlen : is.length = lens.length)
    (hnodup : is.Nodup) (hlive : ∀ i ∈ is, s.LiveReq i fun _ => True) :
    ∃ s', s.allocForExtend cfg is lens = some s' ∧ KvInv cfg s' locks := by
  obtain ⟨rows, hrows, hrlen⟩ := batchRows_live hlive
  simp only [KvState.allocForExtend, hrows, Option.bind_eq_bind, Option.bind_some]
  split
  · next hone => exact ⟨_, rfl, h.settle_alloc hone hrows hnodup (hrlen.trans hlen)⟩
  · refine ⟨_, rfl, ?_⟩
    obtain ⟨a, _, hres⟩ := Allocator.allocExtend_spec s.allocator
      (extendReqs_continues (hrlen.trans hlen))
    rw [cfg.page_eq] at hres
    exact h.settle hrows hnodup hres

theorem allocForDecode (h : KvInv cfg s locks) {is : List Nat}
    (hnodup : is.Nodup) (hlive : ∀ i ∈ is, s.LiveReq i fun _ => True) :
    ∃ s', s.allocForDecode cfg is = some s' ∧ KvInv cfg s' locks := by
  obtain ⟨rows, hrows, hrlen⟩ := batchRows_live hlive
  simp only [KvState.allocForDecode, hrows, Option.bind_eq_bind, Option.bind_some]
  split
  · next hone =>
    exact ⟨_, rfl, h.settle_alloc hone hrows hnodup (by rw [length_replicate, hrlen])⟩
  · next hone =>
    refine ⟨_, rfl, ?_⟩
    have hps : 1 < cfg.pool.pageSize := by
      have := cfg.pool.pageSize_pos
      rw [cfg.page_eq] at this ⊢
      omega
    obtain ⟨a, _, hres⟩ := Allocator.allocDecode_spec s.allocator hps
      (extendReqs_decodes)
    rw [cfg.page_eq, hrlen] at hres
    exact h.settle hrows hnodup hres

/-! ## Section 8: Eviction and free groups -/

theorem drained (h : KvInv cfg s locks) {c : RadixCache} {freed : List (List Nat)}
    (hd : RadixCache.Drained cfg.cache locks s.cache c freed) :
    KvInv cfg { s with cache := c, allocator := s.allocator.freeAll cfg.pool freed } locks := by
  refine ⟨hd.run, hd.whole, h.bound, h.locks_eq, ?_, ?_⟩
  · intro i r hi
    exact (h.req_ok hi).keeps hd.keeps (h.mem_locks hi)
  · have hpool := h.pool
    rw [← hd.slots] at hpool
    have hfree := (Allocator.slots_freeAll (a := s.allocator)
      (M := c.view.treeSlots + nodeSum (ownedSlots cfg) s.reqs cfg.maxReqs)
      (by rw [cfg.page_eq]; exact hd.freed_whole) (by rw [← hpool]; abel)).1
    rw [← hfree]
    abel

theorem evict (h : KvInv cfg s locks) (order : RadixCache.EvictionOrder) (numTokens : Nat) :
    (cfg.cache.enableKvCacheEvents = false → (s.evict cfg order numTokens).isSome) ∧
      ∀ s', s.evict cfg order numTokens = some s' → KvInv cfg s' locks := by
  obtain ⟨c, res, acc, heq, hd, _, hres⟩ := RadixCache.evict_rule cfg.cache order numTokens
    (fun c acc => RadixCache.Drained cfg.cache locks s.cache c acc.freed)
    (fun hP _ _ _ prune _ hview hev =>
      hP.delete prune ((RadixCache.view_recordRemoveEvent hev).trans hview))
    (.refl h.run h.whole) h.run.tree
  simp only [KvState.evict, heq, Option.bind_eq_bind, Option.bind_some]
  rcases hres with rfl | ⟨rfl, hon⟩
  · simp only [Option.bind_some, Option.isSome_some, implies_true, true_and, Option.some.injEq]
    rintro s' rfl
    exact h.drained hd
  · refine ⟨fun hoff => ?_, fun _ hs' => by cases hs'⟩
    rw [hoff] at hon
    cases hon

theorem releaseRadixSession (h : KvInv cfg s locks) (iter : List Nat → List Nat) (sid : String) :
    ∃ s', s.releaseRadixSession cfg iter sid = some s' ∧ KvInv cfg s' locks := by
  obtain ⟨c, freed, heq, hd, _⟩ := RadixCache.releaseRadixSession_rule cfg.cache sid
    iter (RadixCache.Drained cfg.cache locks s.cache)
    (fun hq hP => hP.quiet hq) (fun hP _ _ _ prune _ hview _ => hP.delete prune hview)
    (.refl h.run h.whole) h.run.tree
  exact ⟨_, by simp [KvState.releaseRadixSession, heq], h.drained hd⟩

theorem nodup_pages (h : KvInv cfg s locks) : (s.allocator.pages cfg.pool).Nodup := by
  refine Allocator.nodup_of_conserved cfg.pool
    (s.cache.view.treeSlots + nodeSum (ownedSlots cfg) s.reqs cfg.maxReqs) ?_
  rw [← add_assoc]
  exact h.pool

theorem init (cfg : KvConfig) (now : Int) : KvInv cfg (KvState.init cfg now) [] := by
  have hsum : ∀ {M : Type} [AddCommMonoid M] {f : Option Req → M}, f none = 0 →
      nodeSum f (KvState.init cfg now).reqs cfg.maxReqs = 0 := fun hf =>
    Finset.sum_eq_zero fun _ _ => hf
  refine ⟨RadixCache.runInv_reset _ _ _, ?_, ?_, ?_, ?_, ?_⟩
  · -- the root holds nothing
    intro i n hi
    by_cases hz : i = 0
    · subst hz
      cases hi
      exact ⟨[], (expand_nil).symm⟩
    · simp [KvState.init, RadixCache.init, RadixCache.reset, RadixCache.view,
        update_of_ne hz] at hi
  · intro i r hi
    cases hi
  · rw [hsum rfl]
    rfl
  · intro i r hi
    cases hi
  · rw [hsum rfl, add_zero]
    have htree : (KvState.init cfg now).cache.view.treeSlots = 0 := rfl
    rw [htree, add_zero]
    simp [Allocator.slots, Allocator.poolSlots, KvState.init, Allocator.clear, Allocator.pages]

/-! ## Section 9: Runs -/

/-- Every step keeps the invariant; none raises while no events are recorded. -/
theorem step (h : KvInv cfg s locks) {op : KvOp} (hvalid : s.Valid cfg op) :
    (cfg.cache.enableKvCacheEvents = false → (s.step cfg op).isSome) ∧
      ∀ s', s.step cfg op = some s' → ∃ locks', KvInv cfg s' locks' := by
  -- operations that always return
  have htotal : ∀ {o : Option KvState}, (∃ s' locks', o = some s' ∧ KvInv cfg s' locks') →
      (cfg.cache.enableKvCacheEvents = false → o.isSome) ∧
        ∀ s', o = some s' → ∃ locks', KvInv cfg s' locks' := by
    rintro o ⟨s', locks', rfl, h'⟩
    refine ⟨fun _ => rfl, ?_⟩
    intro s₁ hs₁
    cases hs₁
    exact ⟨locks', h'⟩
  have hlive : ∀ {i : Nat} {P : Req → Prop}, s.LiveReq i P → ∃ r, s.reqs i = some r ∧ P r := by
    intro i P hP
    cases hi : s.reqs i with
    | none => simp [KvState.LiveReq, hi] at hP
    | some r => exact ⟨r, rfl, by simpa [KvState.LiveReq, hi] using hP⟩
  cases op with
  | newReq now i tokenIds extraKey priority sessionId matchLen =>
    exact htotal (h.newReq hvalid.1 (Option.isNone_iff_eq_none.mp hvalid.2) now tokenIds extraKey
      priority sessionId matchLen)
  | appendTokens i tokens =>
    obtain ⟨r, hi, _⟩ := hlive hvalid
    exact htotal ⟨_, locks, by simp [KvState.step, KvState.appendTokens, hi],
      h.appendTokens hi tokens⟩
  | allocForExtend is lens =>
    obtain ⟨s', heq, h'⟩ := h.allocForExtend hvalid.1 hvalid.2.1 hvalid.2.2
    exact htotal ⟨s', locks, heq, h'⟩
  | allocForDecode is =>
    obtain ⟨s', heq, h'⟩ := h.allocForDecode hvalid.1 hvalid.2
    exact htotal ⟨s', locks, heq, h'⟩
  | cacheUnfinishedReq now i fillLen chunked =>
    obtain ⟨r, hi, htok, hrow, hprot⟩ := hlive hvalid
    exact h.cacheUnfinishedReq hi htok hrow hprot now chunked
  | releaseKvCache now i commitLen isInsert =>
    obtain ⟨r, hi, htok, hrow, hprot⟩ := hlive hvalid
    exact h.releaseKvCache hi htok hrow hprot now isInsert
  | abortReq i =>
    obtain ⟨r, hi, hrow⟩ := hlive hvalid
    exact htotal (h.abortReq hi hrow)
  | evict order numTokens =>
    obtain ⟨hsome, h'⟩ := h.evict order numTokens
    exact ⟨hsome, fun s' hs' => ⟨locks, h' s' hs'⟩⟩
  | releaseRadixSession iter sid =>
    obtain ⟨s', heq, h'⟩ := h.releaseRadixSession iter sid
    exact htotal ⟨s', locks, heq, h'⟩
  | freeGroupBegin =>
    refine htotal ⟨_, locks, rfl, h.allocator_congr ?_⟩
    have hout : s.allocator.inFreeGroup = false := hvalid
    simp [Allocator.pages, Allocator.freeGroupBegin, hout]
  | freeGroupEnd =>
    exact htotal ⟨_, locks, rfl,
      h.allocator_congr (Allocator.pages_freeGroupEnd hvalid h.nodup_pages).1⟩

theorem exec {ops : List KvOp} : ∀ {s : KvState} {locks : List Nat}, KvInv cfg s locks →
    s.ValidOps cfg ops →
    (cfg.cache.enableKvCacheEvents = false → (s.exec cfg ops).isSome) ∧
      ∀ s', s.exec cfg ops = some s' → ∃ locks', KvInv cfg s' locks' := by
  induction ops with
  | nil =>
    intro s locks h _
    refine ⟨fun _ => rfl, ?_⟩
    rintro s' hs'
    cases hs'
    exact ⟨locks, h⟩
  | cons op ops ih =>
    intro s locks h hvalid
    obtain ⟨hsome, hstep⟩ := h.step hvalid.1
    have hrest := hvalid.2
    unfold KvState.exec
    cases hs : s.step cfg op with
    | none =>
      rw [hs] at hsome
      exact ⟨fun hoff => absurd (hsome hoff) (by simp), by simp⟩
    | some s₁ =>
      rw [hs] at hrest
      obtain ⟨locks₁, h₁⟩ := hstep s₁ hs
      exact ih h₁ hrest

end KvInv

end Sglang.MemCache
