import Sglang.MemCache.KvEventMirror
import Sglang.Router.BlockHash

/-!
# Router and Worker Hash the Same Blocks

The worker hashes each tree node from the last digest of its parent and cuts the lists of hashes
when it splits a node; the router hashes a whole prompt in one loop. Over every run of a
`RadixCache` with events both give the same signed 64-bit block hashes.

- `ReportInv`: nodes carry the hashes of their own pages, and every published hash is that of a page
  of an inserted key,
- `ReportInv.exec`: every run keeps it,
- `chain_eq_router`: the hashes of the pages of a stored prompt are the router's.
-/

namespace Sglang.Router

open List
open Lib
open MemCache
open RadixCache

variable {cfg : CacheConfig}

/-! ## Section 1: What the worker reports -/

/-- Nodes carry the hashes of their pages, stored pages are in `K`, and every published hash is that
of a page of `K`. -/
structure ReportInv (cfg : CacheConfig) (K : Set (List Letter)) (seen : List KvEvent)
    (s : RadixCache) : Prop where
  hash : HashInv cfg s
  keys : (s.assoc cfg).keys ⊆ K
  stored : ∀ h parent units size,
    .blockStored h parent units size ∈ seen ++ s.kvEventQueue →
      ∃ p ∈ K, blockHash cfg p = some h ∧ units = unitsOf (p.drop (p.length - cfg.pageSize)) ∧
        size = cfg.pageSize
  removed : ∀ hs, .blockRemoved hs ∈ seen ++ s.kvEventQueue →
    ∀ h ∈ hs, ∃ p ∈ K, blockHash cfg p = some h

theorem mem_storeEvents {ps : Nat} {hs : List String} {us : List KeyUnit} {parent : Option Int}
    {e : KvEvent} (he : e ∈ storeEvents ps hs us parent) :
    ∃ j, ∃ hj : j < hs.length, ∃ q, e = .blockStored (hashStrToInt64 hs[j]) q
      ((us.drop (j * ps)).take ps) ((us.drop (j * ps)).take ps).length := by
  induction hs generalizing us parent with
  | nil => simp [storeEvents] at he
  | cons h hs ih =>
    simp only [storeEvents, mem_cons] at he
    rcases he with rfl | he
    · exact ⟨0, by simp, parent, by simp⟩
    · obtain ⟨j, hj, q, rfl⟩ := ih he
      refine ⟨j + 1, by simpa using hj, q, ?_⟩
      rw [drop_drop, getElem_cons_succ, Nat.succ_mul, Nat.add_comm ps]

section Operations

variable {K : Set (List Letter)} {seen : List KvEvent} {s t : RadixCache}

theorem ReportInv.silent (h : ReportInv cfg K seen s) (hs : Silent cfg s t) :
    ReportInv cfg K seen t := by
  refine ⟨hs.hash, ?_, ?_, ?_⟩
  · rw [hs.assoc]
    exact h.keys
  · rw [hs.events]
    exact h.stored
  · rw [hs.events]
    exact h.removed

/-- A new leaf publishes the hashes of its pages, each with the tokens of the page. -/
theorem ReportInv.inserted (hon : cfg.enableKvCacheEvents = true) (h : ReportInv cfg K seen s)
    (inv : TreeInv cfg.pageSize s.view) {key : RadixKey} {value : List Nat}
    {res : Option InsertResult} (hins : Inserted cfg s key value t res)
    (hfit : ∀ u ∈ key.units, (unitWords u).isSome)
    (hK : ∀ p, IsPagePrefix cfg.pageSize p key.letters → p ∈ K) : ReportInv cfg K seen t := by
  have hps := cfg.pageSize_pos
  have hassoc := hins.assoc_eq inv
  cases hins with
  | found hre _ _ => exact h.silent (hre.silent inv h.hash)
  | @added s₁ s₂ _ now priority chunked ok node d nd rest hre hnode hang hword _ hadd hview hev =>
    have h₁ := h.silent (hre.silent inv h.hash)
    have inv₁ := hre.inv inv
    have hunits : key.units = unitsOf (s₁.view.word node) ++ rest.units := by
      rw [← unitsOf_letters, ← hword, ← unitsOf_letters]
      simp [unitsOf]
    obtain ⟨hhash, hs, parent, hnew, hqueue, _⟩ := recordStoreEvent_new hon inv₁ h₁.hash hnode hang
      hadd hview hev fun u hu => hfit u (by rw [hunits]; exact mem_append_right _ hu)
    have hview' := (view_recordStoreEvent hev).trans hview
    have hleaf : t.view.core s₁.counter = some (.leaf node rest (value.drop d)) := by
      rw [hview']
      exact inv₁.addLeaf_new hang
    have hwnew : t.view.word s₁.counter = key.letters := by
      rw [hview', show s₁.counter = s₁.view.counter from rfl, inv₁.word_addLeaf_new hang, hword]
    obtain ⟨all, hall, hown⟩ := hhash hleaf
    rw [hnew, hwnew] at hown
    rw [hwnew] at hall
    cases hown
    refine ⟨hhash, ?_, ?_, ?_⟩
    · rintro p ⟨pg, hp⟩
      rw [hassoc] at hp
      rcases hp with hp | ⟨hp, _, _⟩
      · exact h.keys ⟨pg, hp⟩
      · exact hK p hp
    · intro x q units size hx
      rw [hqueue, ← append_assoc, mem_append] at hx
      rcases hx with hx | hx
      · exact h₁.stored x q units size hx
      · obtain ⟨j, hj, q', heq⟩ := mem_storeEvents hx
        cases heq
        have hfront : key.letters.length - rest.len = (s₁.view.word node).length := by
          rw [← hword, length_append, RadixKey.letters_length]
          omega
        have hpdvd := inv₁.trie.word_dvd (TreeInv.trie_at hang.node_at)
        have hlen := chain_length hall
        have hown : ownHashes cfg key.letters (NodeCore.leaf node rest (value.drop d)).key.len all =
            all.drop ((s₁.view.word node).length / cfg.pageSize) := by
          rw [ownHashes, ← hfront]
          rfl
        rw [hown, length_drop] at hj
        simp only [hown, getElem_drop]
        -- the page that the event is about
        have hlt : (s₁.view.word node).length / cfg.pageSize + j < all.length := by omega
        have hmul : ((s₁.view.word node).length / cfg.pageSize + j + 1) * cfg.pageSize =
            (s₁.view.word node).length + j * cfg.pageSize + cfg.pageSize := by
          rw [Nat.add_mul, Nat.add_mul, Nat.div_mul_cancel hpdvd, Nat.one_mul]
        have hle : (s₁.view.word node).length + j * cfg.pageSize + cfg.pageSize ≤
            key.letters.length := by
          rw [hlen] at hlt
          rw [← hmul]
          exact (Nat.le_div_iff_mul_le hps).mp hlt
        refine ⟨_, ?_, blockHash_take hall hlt, ?_⟩
        · apply hK
          rw [hmul]
          refine ⟨ne_nil_of_length_pos ?_, ?_, take_prefix _ _⟩
          · rw [length_take, min_eq_left hle]
            omega
          · rw [length_take, min_eq_left hle, ← hmul]
            exact Nat.dvd_mul_left _ _
        · have hpage : (rest.units.drop (j * cfg.pageSize)).take cfg.pageSize =
              unitsOf ((key.letters.take ((s₁.view.word node).length + j * cfg.pageSize +
                cfg.pageSize)).drop ((s₁.view.word node).length + j * cfg.pageSize)) := by
            rw [← hword, drop_take, Nat.add_sub_cancel_left, ← drop_drop,
              drop_left]
            simp [unitsOf, ← unitsOf_letters, map_take, map_drop]
          have hsize : ((rest.units.drop (j * cfg.pageSize)).take cfg.pageSize).length =
              cfg.pageSize := by
            have hrest : key.letters.length = (s₁.view.word node).length + rest.len := by
              rw [← hword, length_append, RadixKey.letters_length]
            rw [length_take, length_drop, RadixKey.units_length]
            omega
          rw [hmul, length_take, min_eq_left hle, Nat.add_sub_cancel]
          exact ⟨hpage, hsize⟩
    · intro hs' hx
      rw [hqueue, ← append_assoc, mem_append] at hx
      rcases hx with hx | hx
      · exact h₁.removed hs' hx
      · obtain ⟨_, _, _, heq⟩ := mem_storeEvents hx
        cases heq

end Operations

/-! ## Section 2: Runs -/

section Runs

variable {K : Set (List Letter)} {seen : List KvEvent} {s t : RadixCache}

theorem ReportInv.deleted (h : ReportInv cfg K seen s) (inv : TreeInv cfg.pageSize s.view)
    {x p : Nat} {xn pn : TreeNode} (hx : s.nodes x = some xn) (hp : s.nodes p = some pn)
    (prune : TreeInv.Prune s.view x xn.toNodeCore p pn.toNodeCore)
    (hdel : s.deleteLeaf cfg x = some t)
    (hview : t.view = s.view.removeLeaf cfg.pageSize x xn.toNodeCore p pn.toNodeCore) :
    ReportInv cfg K seen t := by
  have hassoc : t.assoc cfg = (s.assoc cfg).remove (s.view.pagesOf cfg.pageSize x) := by
    unfold RadixCache.assoc
    rw [hview]
    exact inv.assoc_removeLeaf prune
  have hqueue := (hashAt_deleteLeaf hx hp prune.parent_eq hdel).2
  refine ⟨hashInv_deleteLeaf inv h.hash hx hp prune hdel hview, ?_, ?_, ?_⟩
  · rw [hassoc, keys_remove]
    exact fun w hw => h.keys hw.1
  · rw [hqueue]
    exact h.stored
  · rw [hqueue]
    exact h.removed

theorem ReportInv.evicted (hon : cfg.enableKvCacheEvents = true) (h : ReportInv cfg K seen s)
    (inv : TreeInv cfg.pageSize s.view) {s₁ : RadixCache} {x p : Nat} {xn pn : TreeNode}
    {ok : Bool} (hx : s.nodes x = some xn) (hp : s.nodes p = some pn)
    (prune : TreeInv.Prune s.view x xn.toNodeCore p pn.toNodeCore)
    (hdel : s.deleteLeaf cfg x = some s₁)
    (hview : s₁.view = s.view.removeLeaf cfg.pageSize x xn.toNodeCore p pn.toNodeCore)
    (hev : s₁.recordRemoveEvent cfg xn = (t, ok)) : ReportInv cfg K seen t := by
  have h₁ := h.deleted inv hx hp prune hdel hview
  obtain ⟨all, hall, hown⟩ := h.hash prune.node_at
  have hown : xn.hashValue = some (ownHashes cfg (s.view.word x) xn.key.len all) := by
    simpa [hashAt, hx] using hown
  have hpages := mem_ownHashes_iff inv prune.node_at prune.parent_eq hall
  simp only [recordRemoveEvent, hon, if_true, hown, Option.or] at hev
  split at hev
  · cases hev
    exact h₁
  · cases hev
    refine ⟨hashInv_congr h₁.hash rfl fun _ => rfl, h₁.keys, ?_, ?_⟩
    · intro y q units size hy
      rw [← append_assoc, mem_append] at hy
      rcases hy with hy | hy
      · exact h₁.stored y q units size hy
      · simp at hy
    · intro hs hy
      rw [← append_assoc, mem_append] at hy
      rcases hy with hy | hy
      · exact h₁.removed hs hy
      · simp only [mem_singleton, KvEvent.blockRemoved.injEq] at hy
        subst hy
        intro y hy
        rw [map_take] at hy
        obtain ⟨w, ⟨c, q, hc, _, hw, _⟩, hblock⟩ := (hpages y).mp (mem_of_mem_take hy)
        exact ⟨w, h.keys (TreeInv.mem_keys_assoc_iff.mpr ⟨x, c, hc, hw⟩), hblock⟩

theorem ReportInv.reset (h : ReportInv cfg K seen s) (now : Int) :
    ReportInv cfg K seen (s.reset cfg now) := by
  have hqueue : ∀ e ∈ (s.reset cfg now).kvEventQueue, e ∈ s.kvEventQueue ∨
      e = .allBlocksCleared := by
    intro e he
    simp only [RadixCache.reset] at he
    split at he
    · simpa using he
    · exact .inl (by simpa using he)
  have hold : ∀ e, e ∈ seen ++ (s.reset cfg now).kvEventQueue → e ≠ .allBlocksCleared →
      e ∈ seen ++ s.kvEventQueue := by
    intro e he hne
    rcases mem_append.mp he with he | he
    · exact mem_append_left _ he
    · exact mem_append_right _ ((hqueue e he).resolve_right hne)
  refine ⟨hashInv_reset now, ?_, ?_, ?_⟩
  · rintro p ⟨pg, hp⟩
    rw [assoc_reset] at hp
    exact hp.elim
  · exact fun x q units size hx => h.stored x q units size (hold _ hx (by simp))
  · exact fun hs hx => h.removed hs (hold _ hx (by simp))

end Runs

def Is32Bit (key : RadixKey) : Prop := ∀ t ∈ key.rawTokenIds, 0 ≤ t ∧ t < 2 ^ 32

def CacheOp.Is32Bit : CacheOp → Prop
  | .insert _ key _ _ _ => Router.Is32Bit key
  | _ => True

theorem unitWords_isSome {key : RadixKey} (h : Is32Bit key) :
    ∀ u ∈ (alignedKey cfg key).units, (unitWords u).isSome := by
  intro u hu
  have hcheck : ∀ t ∈ key.rawTokenIds, checkedU32 t = some t.toNat := fun t ht => if_pos (h t ht)
  have hraw : (key.maybeToBigramView cfg.isEagle).rawTokenIds = key.rawTokenIds := by
    unfold RadixKey.maybeToBigramView
    split <;> rfl
  rw [alignedKey, RadixKey.units_pageAligned] at hu
  have hu := mem_of_mem_take hu
  unfold RadixKey.units at hu
  rw [hraw] at hu
  split at hu
  · obtain ⟨j, hj, rfl⟩ := getElem_of_mem hu
    rw [bigrams_length] at hj
    have h₁ := hcheck _ (getElem_mem (show j < key.rawTokenIds.length by omega))
    have h₂ := hcheck _ (getElem_mem (show j + 1 < key.rawTokenIds.length by omega))
    simp [bigrams, unitWords, h₁, h₂]
  · obtain ⟨t, ht, rfl⟩ := mem_map.mp hu
    simp [unitWords, hcheck t ht]

theorem ReportInv.step (hon : cfg.enableKvCacheEvents = true) {K : Set (List Letter)}
    {seen : List KvEvent} {r r' : CacheRun} (h : RunInv cfg r) (hr : ReportInv cfg K seen r.cache)
    {op : CacheOp} (hvalid : op.Valid cfg r) (h32 : CacheOp.Is32Bit op) (hpages : op.pages cfg ⊆ K)
    (hstep : r.step cfg op = some r') : ReportInv cfg K seen r'.cache := by
  apply step_rule h hr.hash hvalid hstep fun hs => hr.silent hs
  have htree : TreeInv cfg.pageSize r.cache.view := h.tree
  cases op with
  | insert now key value priority chunked =>
    intro _ t res hins
    exact hr.inserted hon htree hins (unitWords_isSome h32) fun p hp => hpages hp
  | evict order numTokens =>
    intro t res heq
    obtain ⟨t', res', acc, heq', ht, _, _⟩ := evict_rule cfg order numTokens
      (fun t _ => ReportInv cfg K seen t)
      (fun hP inv hx hp prune hdel hview hev => hP.evicted hon inv hx hp prune hdel hview hev)
      hr htree
    rw [heq] at heq'
    cases heq'
    exact ht
  | releaseRadixSession iter sid =>
    intro t freed heq
    obtain ⟨t', freed', heq', ht, _⟩ := releaseRadixSession_rule cfg sid iter
      (fun t _ => ReportInv cfg K seen t) (fun hq hP => hP.silent (hq.silent hP.hash))
      (fun hP inv hx hp prune hdel hview _ => hP.deleted inv hx hp prune hdel hview) hr htree
    rw [heq] at heq'
    cases heq'
    exact ht
  | reset now => exact hr.reset now
  | _ => trivial

/-- Every run of valid operations on 32-bit ids returns, and its reports are right. -/
theorem ReportInv.exec (hon : cfg.enableKvCacheEvents = true) {K : Set (List Letter)}
    {ops : List EventOp} {r : EventRun} (h : RunInv cfg r.run)
    (hr : ReportInv cfg K r.seen r.run.cache)
    (hvalid : r.Always cfg (fun r o => o.Valid cfg r) ops)
    (h32 : ∀ o, .op o ∈ ops → CacheOp.Is32Bit o) (hpages : insertedPages cfg ops ⊆ K) :
    ∃ r', r.exec cfg ops = some r' ∧ RunInv cfg r'.run ∧ ReportInv cfg K r'.seen r'.run.cache := by
  induction ops generalizing r with
  | nil => exact ⟨r, rfl, h, hr⟩
  | cons op ops ih =>
    obtain ⟨r₁, hstep, h₁, hvalid₁⟩ := h.eventStep hvalid
    have hr₁ : ReportInv cfg K r₁.seen r₁.run.cache := by
      cases op with
      | op o =>
        obtain ⟨run, heq, rfl⟩ := Option.map_eq_some_iff.mp hstep
        exact hr.step hon h hvalid.1 (h32 o (mem_cons_self ..))
          (fun p hp => hpages ⟨o, mem_cons_self .., hp⟩) heq
      | takeEvents =>
        simp only [EventRun.step, takeEvents, hon, if_true, Option.some.injEq] at hstep
        subst hstep
        refine ⟨hashInv_congr hr.hash rfl fun _ => rfl, hr.keys, ?_, ?_⟩
        · simpa using hr.stored
        · simpa using hr.removed
    obtain ⟨r', hexec, h', hr'⟩ := ih h₁ hr₁ hvalid₁
      (fun o ho => h32 o (mem_cons_of_mem _ ho)) fun p hp => by
        obtain ⟨o, ho, hp⟩ := hp
        exact hpages ⟨o, mem_cons_of_mem _ ho, hp⟩
    exact ⟨r', by simp [EventRun.exec, hstep, hexec], h', hr'⟩

/-! ## Section 3: Against the router -/

section Router

variable {sha : List UInt8 → Digest} {key : RadixKey}

/-- The prompt that the router hashes for a key. -/
def words32 (key : RadixKey) : List UInt32 := key.rawTokenIds.map fun t => UInt32.ofNat t.toNat

/-- The mode in which a cache stores a key. -/
def storedMode (cfg : CacheConfig) (key : RadixKey) : Bool := cfg.isEagle || key.isBigram

theorem intTokens_words32 (h : Is32Bit key) : intTokens (words32 key) = key.rawTokenIds := by
  rw [intTokens, words32, map_map]
  refine (map_congr_left fun t ht => ?_).trans (map_id _)
  obtain ⟨hlo, hhi⟩ := h t ht
  simp only [Function.comp_apply, id_eq, UInt32.toNat_ofNat']
  omega

theorem promptUnits_words32 (h : Is32Bit key) (isBigram : Bool) :
    promptUnits isBigram (words32 key) =
      if isBigram then bigrams key.rawTokenIds else key.rawTokenIds.map KeyUnit.token := by
  rw [promptUnits, intTokens_words32 h]

theorem pagesHashes_eq_getHashStr (hsha : cfg.sha256 = hexSha sha) (h : Is32Bit key)
    {raw : RawTokens} (hraw : raw.Holds (words32 key)) (prior : Option Digest) :
    pagesHashes sha raw key.len cfg.pageSize key.isBigram prior =
      getHashStr cfg key (prior.map digestToHexString) := by
  have hunits : promptUnits key.isBigram (words32 key) = key.units := by
    rw [promptUnits_words32 h, RadixKey.units]
  have hblob := @hashPagesToHexBlob_eq sha cfg hsha raw key.isBigram _ hraw 0 prior
  rw [hunits, RadixKey.units_length, Nat.sub_zero, drop_zero] at hblob
  rw [pagesHashes, dif_pos cfg.pageSize_pos, hblob, getHashStr]

theorem units_alignedKey (h : Is32Bit key) : (alignedKey cfg key).units =
    (promptUnits (storedMode cfg key) (words32 key)).take (alignedKey cfg key).len := by
  have hraw : (key.maybeToBigramView cfg.isEagle).rawTokenIds = key.rawTokenIds := by
    unfold RadixKey.maybeToBigramView
    split <;> rfl
  rw [alignedKey, RadixKey.units_pageAligned, RadixKey.len_pageAligned, promptUnits_words32 h,
    RadixKey.units, hraw, RadixKey.maybeToBigramView_isBigram]
  rfl

/-- The hashes of the pages of a stored word are the first ones of the router. -/
theorem chain_eq_router (hsha : cfg.sha256 = hexSha sha) (h : Is32Bit key) {p : List Letter}
    (hdvd : cfg.pageSize ∣ p.length) (hp : p <+: (alignedKey cfg key).letters) :
    ∃ hs all, routerHashes sha (storedMode cfg key) (words32 key) cfg.pageSize = some hs ∧
      chain cfg p = some all ∧
      all.map hashStrToInt64 = (hs.take (p.length / cfg.pageSize)).map Int64.toInt := by
  obtain ⟨n, hn⟩ := hdvd
  have hdiv : p.length / cfg.pageSize = n := by
    rw [hn, Nat.mul_div_cancel_left _ cfg.pageSize_pos]
  have haligned : (alignedKey cfg key).units = _ := units_alignedKey h
  have hle : p.length ≤ (alignedKey cfg key).len := by simpa using hp.length_le
  have hlen : n * cfg.pageSize ≤ (promptUnits (storedMode cfg key) (words32 key)).length := by
    have htotal := congrArg List.length haligned
    rw [RadixKey.units_length, length_take] at htotal
    rw [Nat.mul_comm, ← hn]
    omega
  have hunits : unitsOf p =
      (promptUnits (storedMode cfg key) (words32 key)).take (n * cfg.pageSize) := by
    have hpre : unitsOf p = (alignedKey cfg key).units.take p.length := by
      rw [← unitsOf_letters, prefix_iff_eq_take.mp hp]
      simp [unitsOf, map_take]
    rw [hpre, haligned, take_take, min_eq_left hle, hn, Nat.mul_comm]
  obtain ⟨hs, heq, htake⟩ := @routerHashes_take sha _ _ _ n cfg.pageSize_pos hlen
  have hdigests :=
    @hashPages_promptUnits sha cfg hsha _ _ n 0 none (by rw [Nat.zero_add]; exact hlen)
  rw [drop_zero] at hdigests
  have hsplit := (hashPages_split (b := 0) hdigests).1
  rw [← hunits] at hsplit
  rw [chain, hdiv]
  refine ⟨hs, _, heq, hsplit, ?_⟩
  rw [htake, take_of_length_le (hashPages_length hdigests).le, map_map, map_map]
  apply map_congr_left
  intro d _
  exact hashStrToInt64_digest d

end Router

/-! ## Section 4: Every run -/

/-- `h` is the router's hash of the page `k` of the prompt of `key`. -/
def IsRouterHash (sha : List UInt8 → Digest) (cfg : CacheConfig) (key : RadixKey) (k : Nat)
    (h : Int) : Prop :=
  ∃ hs, routerHashes sha (storedMode cfg key) (words32 key) cfg.pageSize = some hs ∧
    hs[k]?.map Int64.toInt = some h

/-- The page `k` of the prompt of a key, as `BlockStored` carries it. -/
def promptPage (cfg : CacheConfig) (key : RadixKey) (k : Nat) : List KeyUnit :=
  ((alignedKey cfg key).units.drop (k * cfg.pageSize)).take cfg.pageSize

section Runs

variable {sha : List UInt8 → Digest} {key : RadixKey}

theorem len_le_word {v : TreeView} (inv : TreeInv cfg.pageSize v) {i : Nat} {c : NodeCore}
    (hi : v.core i = some c) : c.key.len ≤ (v.word i).length := by
  by_cases hroot : i = v.rootNode
  · obtain ⟨rn, hrn, _, hlen⟩ := inv.root_live
    rw [← hroot, hi] at hrn
    cases hrn
    exact (Nat.le_of_eq hlen).trans (Nat.zero_le _)
  · obtain ⟨p, pn, hp, _⟩ := inv.exists_parent hi hroot
    rw [inv.word_child hi hp, length_append, RadixKey.letters_length]
    omega

theorem isRouterHash_of_blockHash (hsha : cfg.sha256 = hexSha sha) (h32 : Is32Bit key)
    {p : List Letter} (hp : IsPagePrefix cfg.pageSize p (alignedKey cfg key).letters) {h : Int}
    (hblock : blockHash cfg p = some h) :
    ∃ k < (alignedKey cfg key).len / cfg.pageSize, IsRouterHash sha cfg key k h ∧
      unitsOf (p.drop (p.length - cfg.pageSize)) = promptPage cfg key k := by
  have hps := cfg.pageSize_pos
  obtain ⟨hs, all, heq, hall, hmap⟩ := chain_eq_router hsha h32 hp.dvd hp.isPrefix
  have hle : p.length ≤ (alignedKey cfg key).len := by simpa using hp.isPrefix.length_le
  obtain ⟨n, hn⟩ := hp.dvd
  have hpos : 0 < n := by
    apply Nat.pos_of_ne_zero
    rintro rfl
    rw [Nat.mul_zero] at hn
    exact hp.ne_nil (length_eq_zero_iff.mp hn)
  have hdiv : p.length / cfg.pageSize = n := by rw [hn, Nat.mul_div_cancel_left _ hps]
  have hlen : all.length = n := (chain_length hall).trans hdiv
  refine ⟨n - 1, ?_, ⟨hs, heq, ?_⟩, ?_⟩
  · have := Nat.div_le_div_right (c := cfg.pageSize) hle
    omega
  · have hget := congrArg (fun l => l[n - 1]?) hmap
    have hlast : (all.map hashStrToInt64)[n - 1]? = some h := by
      rw [blockHash, hall, Option.bind_some, getLast?_eq_getElem?, hlen] at hblock
      rw [getElem?_map]
      exact hblock
    simp only [hlast, hdiv, getElem?_map, getElem?_take,
      if_pos (show n - 1 < n by omega)] at hget
    exact hget.symm
  · have hpre : unitsOf p = (alignedKey cfg key).units.take p.length := by
      rw [← unitsOf_letters, prefix_iff_eq_take.mp hp.isPrefix]
      simp [unitsOf, map_take]
    have hmul : p.length - cfg.pageSize = (n - 1) * cfg.pageSize := by
      rw [hn, Nat.sub_mul, Nat.one_mul, Nat.mul_comm]
    have hdrop : unitsOf (p.drop (p.length - cfg.pageSize)) =
        (unitsOf p).drop (p.length - cfg.pageSize) := by
      simp [unitsOf, map_drop]
    have hpage : cfg.pageSize ≤ p.length := hp.page_le
    rw [hdrop, hpre, drop_take, promptPage, ← hmul,
      show p.length - (p.length - cfg.pageSize) = cfg.pageSize by omega]

end Runs

/-- For SHA-256 as any function on bytes: in every run of a cache with events whose insertions are
given 32-bit ids, the native page hash is that of the cache model for both kinds of buffers; the
hashes of every node are those the router computes for the same pages of every prompt that passes
through the node; and every published hash is the router's hash of the page it names. -/
theorem worker_hashes_eq_router (sha : List UInt8 → Digest) (cfg : CacheConfig)
    (hsha : cfg.sha256 = hexSha sha) (hon : cfg.enableKvCacheEvents = true) (now : Int)
    (ops : List EventOp)
    (hvalid : (EventRun.start cfg now).Always cfg (fun r o => o.Valid cfg r) ops)
    (h32 : ∀ o, .op o ∈ ops → CacheOp.Is32Bit o) :
    (∀ key, Is32Bit key → ∀ raw : RawTokens, raw.Holds (words32 key) → ∀ prior : Option Digest,
      pagesHashes sha raw key.len cfg.pageSize key.isBigram prior =
        getHashStr cfg key (prior.map digestToHexString)) ∧
    ∃ r, (EventRun.start cfg now).exec cfg ops = some r ∧
      (∀ key, Is32Bit key → ∀ i nd, r.run.cache.nodes i = some nd →
        r.run.cache.view.word i <+: (alignedKey cfg key).letters →
        ∃ own, nd.hashValue = some own ∧ own.length = nd.key.len / cfg.pageSize ∧
          ∀ j, ∀ hj : j < own.length, IsRouterHash sha cfg key
            (((r.run.cache.view.word i).length - nd.key.len) / cfg.pageSize + j)
            (hashStrToInt64 own[j])) ∧
      (∀ h parent units size,
        .blockStored h parent units size ∈ r.seen ++ r.run.cache.kvEventQueue →
        ∃ now key value priority chunked, .op (.insert now key value priority chunked) ∈ ops ∧
          ∃ k < (alignedKey cfg key).len / cfg.pageSize, IsRouterHash sha cfg key k h ∧
            units = promptPage cfg key k) ∧
      (∀ hs, .blockRemoved hs ∈ r.seen ++ r.run.cache.kvEventQueue → ∀ h ∈ hs,
        ∃ now key value priority chunked, .op (.insert now key value priority chunked) ∈ ops ∧
          ∃ k < (alignedKey cfg key).len / cfg.pageSize, IsRouterHash sha cfg key k h) := by
  refine ⟨fun key hkey raw hraw prior => pagesHashes_eq_getHashStr hsha hkey hraw prior, ?_⟩
  have hinit : ReportInv cfg (insertedPages cfg ops) [] (RadixCache.init cfg now) :=
    ReportInv.reset
      ⟨fun hi => by simp [view] at hi, by rintro p ⟨_, i, _, hi, _⟩; simp [view] at hi, by simp,
        by simp⟩ now
  obtain ⟨r, hexec, hinv, hr⟩ := ReportInv.exec hon (runInv_reset cfg now _) hinit hvalid h32
    subset_rfl
  -- the pages of the run are those of inserted 32-bit keys
  have hinserted : ∀ p ∈ insertedPages cfg ops, ∃ now key value priority chunked,
      .op (.insert now key value priority chunked) ∈ ops ∧ Is32Bit key ∧
        IsPagePrefix cfg.pageSize p (alignedKey cfg key).letters := by
    rintro p ⟨o, ho, hp⟩
    cases o with
    | insert now key value priority chunked =>
      exact ⟨now, key, value, priority, chunked, ho, h32 _ ho, hp⟩
    | _ => exact hp.elim
  refine ⟨r, hexec, ?_, ?_, ?_⟩
  · intro key hkey i nd hi hword
    have hdvd := hinv.tree.trie.word_dvd (TreeInv.trie_at (core_at hi))
    obtain ⟨hs, all, heq, hall, hmap⟩ := chain_eq_router hsha hkey hdvd hword
    obtain ⟨all', hall', hown⟩ := hr.hash (core_at hi)
    rw [hall] at hall'
    cases hall'
    have hown : nd.hashValue = some (ownHashes cfg (r.run.cache.view.word i) nd.key.len all) := by
      simpa [hashAt, hi] using hown
    have hkeydvd : cfg.pageSize ∣ nd.key.len := by
      have := hinv.tree.trie.label_dvd (TreeInv.trie_at (core_at hi))
      simpa [TreeLinks.cell] using this
    have hle := len_le_word hinv.tree (core_at hi)
    have hlen := length_ownHashes hall hkeydvd hle
    refine ⟨_, hown, hlen, fun j hj => ⟨hs, heq, ?_⟩⟩
    rw [ownHashes, length_drop] at hj
    have hget := congrArg
      (fun l => l[((r.run.cache.view.word i).length - nd.key.len) / cfg.pageSize + j]?) hmap
    simp only [ownHashes, getElem_drop]
    simp only [getElem?_map, getElem?_take] at hget
    rw [← chain_length hall, if_pos (by omega), getElem?_eq_getElem (by omega),
      Option.map_some] at hget
    exact hget.symm
  · intro h parent units size he
    obtain ⟨p, hp, hblock, hunits, _⟩ := hr.stored h parent units size he
    obtain ⟨now, key, value, priority, chunked, hmem, hkey, hpage⟩ := hinserted p hp
    obtain ⟨k, hk, hrouter, hpageEq⟩ := isRouterHash_of_blockHash hsha hkey hpage hblock
    exact ⟨now, key, value, priority, chunked, hmem, k, hk, hrouter, hunits.trans hpageEq⟩
  · intro hs he h hh
    obtain ⟨p, hp, hblock⟩ := hr.removed hs he h hh
    obtain ⟨now, key, value, priority, chunked, hmem, hkey, hpage⟩ := hinserted p hp
    obtain ⟨k, hk, hrouter, _⟩ := isRouterHash_of_blockHash hsha hkey hpage hblock
    exact ⟨now, key, value, priority, chunked, hmem, k, hk, hrouter⟩

/-- SHA-256 on the two pages of the prompt `1, 2, 3, 4`. -/
def sampleSha (bytes : List UInt8) : Digest where
  bytes := fromHexChars (if bytes.length = 8 then digest12 else digest34).toList
  length_eq := by split <;> decide

def sampleHashConfig : CacheConfig where
  pageSize := 2
  pageSize_pos := Nat.two_pos
  enableKvCacheEvents := true
  sha256 := hexSha sampleSha

/-- An insertion whose node is split by a lookup. -/
theorem worker_hashes_eq_router_split :
    ∃ r, (EventRun.start sampleHashConfig 0).exec sampleHashConfig mirroredOps = some r ∧
      ∀ h parent units size,
        .blockStored h parent units size ∈ r.seen ++ r.run.cache.kvEventQueue →
        ∃ now key value priority chunked,
          .op (.insert now key value priority chunked) ∈ mirroredOps ∧
          ∃ k < (alignedKey sampleHashConfig key).len / 2,
            IsRouterHash sampleSha sampleHashConfig key k h ∧
            units = promptPage sampleHashConfig key k := by
  have hops : ∀ o, EventOp.op o ∈ mirroredOps →
      o = .insert 1 { tokenIds := [1, 2, 3, 4] } [2, 3, 4, 5] 0 false ∨
        o = .matchPrefix 2 { tokenIds := [1, 2] } := by
    intro o ho
    simpa [mirroredOps] using ho
  have hvalid : (EventRun.start sampleHashConfig 0).Always sampleHashConfig
      (fun r o => o.Valid sampleHashConfig r) mirroredOps := by
    apply EventRun.always_of_forall
    intro o ho r
    rcases hops o ho with rfl | rfl
    · change (alignedKey sampleHashConfig _).len ≤ _
      decide
    · trivial
  have h32 : ∀ o, EventOp.op o ∈ mirroredOps → CacheOp.Is32Bit o := by
    intro o ho
    rcases hops o ho with rfl | rfl
    · change ∀ t ∈ RadixKey.rawTokenIds _, _
      decide
    · trivial
  obtain ⟨_, r, hexec, _, hstored, _⟩ :=
    worker_hashes_eq_router sampleSha sampleHashConfig rfl rfl 0 mirroredOps hvalid h32
  exact ⟨r, hexec, hstored⟩

example : computeBlockHashes sampleSha [1, 2, 3, 4] 2 =
    some [3817746824117602890, -4216701448867210342] := by decide +kernel

end Sglang.Router
