import Sglang.Router.WorkerHash
import Sglang.Router.HashTreeChains
import Sglang.Router.KvEventIndex

/-!
# The Chains a Worker Announces

A cache holds pages; what it puts on the wire are the chains of their block hashes. This module
follows the event queue of one cache with the chains that a reader of the queue believes held.

- `Tells`: a stream of events takes a reader from one set of chains to another,
- `Reported`: the events sent and queued take the reader to the chains of the cache,
- `Reported.step`: every operation of the cache keeps this,
- `TreeState.Indexes.event`: the hash tree is such a reader, for every worker at once.
-/

namespace Sglang.Router

open List Function
open Lib
open MemCache
open RadixCache

variable {cfg : CacheConfig}

/-! ## Section 1: Events on the wire -/

/-- What the index reads of an event: `block_hashes` and `parent_block_hash`, as `i64`. -/
def wireEvent : KvEvent → KvCacheEvent
  | .blockStored h parent _ _ => .blockStored (parent.map Int64.ofInt) [Int64.ofInt h]
  | .blockRemoved hs => .blockRemoved (hs.map Int64.ofInt)
  | .allBlocksCleared => .allBlocksCleared

def wireHash (digest : String) : Int64 := Int64.ofInt (hashStrToInt64 digest)

/-- The block hashes of the pages of a word. -/
def hashChain (cfg : CacheConfig) (p : List Letter) : List Int64 :=
  ((chain cfg p).getD []).map wireHash

/-- The chains of the pages in the tree of a cache. -/
def heldChains (cfg : CacheConfig) (s : RadixCache) : Set (List Int64) :=
  {c | ∃ p ∈ (s.assoc cfg).keys, hashChain cfg p = c}

theorem hashChain_of_chain {p : List Letter} {all : List String} (h : chain cfg p = some all) :
    hashChain cfg p = all.map wireHash := by
  rw [hashChain, h]
  rfl

theorem getLast?_hashChain (cfg : CacheConfig) (p : List Letter) :
    (hashChain cfg p).getLast? = (blockHash cfg p).map Int64.ofInt := by
  rw [hashChain, blockHash]
  cases chain cfg p with
  | none => rfl
  | some all =>
    rw [Option.getD_some, Option.bind_some, getLast?_map, Option.map_map]
    rfl

/-! ## Section 2: Readers -/

/-- The chains of a set with their beginnings. -/
def PrefixClosed (H : Set (List Int64)) : Prop := ∀ {c d}, c ++ d ∈ H → c ≠ [] → c ∈ H

/-- An event takes a reader that holds `H` to `H'`; all chains are in `C`. -/
def Announces (C H H' : Set (List Int64)) : KvCacheEvent → Prop
  | .blockStored parent hashes =>
    ∃ c x, parent = c.getLast? ∧ hashes = [x] ∧ (c = [] ∨ c ∈ H) ∧ c ++ [x] ∈ C ∧
      H' = insert (c ++ [x]) H
  | .blockRemoved hashes =>
    H' = {c | c ∈ H ∧ ∀ x ∈ hashes, c.getLast? ≠ some x} ∧ PrefixClosed H'
  | .allBlocksCleared => H' = ∅

/-- A stream of events takes a reader that holds `H` to `H'`. -/
inductive Tells (C : Set (List Int64)) :
    Set (List Int64) → List KvCacheEvent → Set (List Int64) → Prop where
  | nil (H : Set (List Int64)) : Tells C H [] H
  | cons {H H₁ H' : Set (List Int64)} {e : KvCacheEvent} {es : List KvCacheEvent}
      (head : Announces C H H₁ e) (tail : Tells C H₁ es H') : Tells C H (e :: es) H'

theorem Tells.append {C H H₁ H' : Set (List Int64)} {es es' : List KvCacheEvent}
    (h : Tells C H es H₁) (h' : Tells C H₁ es' H') : Tells C H (es ++ es') H' := by
  induction h with
  | nil => exact h'
  | cons head _ ih => exact .cons head (ih h')

theorem Tells.eq_of_nil {C H H' : Set (List Int64)} (h : Tells C H [] H') : H = H' := by
  cases h
  rfl

theorem Tells.single {C H H' : Set (List Int64)} {e : KvCacheEvent} (h : Announces C H H' e) :
    Tells C H [e] H' := .cons h (.nil H')

/-- The `BlockStored` events of a node add its chains, one a page. -/
theorem tells_storeEvents {C : Set (List Int64)} (ps : Nat) (hs : List String) :
    ∀ {H : Set (List Int64)} {us : List KeyUnit} {parent : Option Int} {c : List Int64},
      parent.map Int64.ofInt = c.getLast? → (c = [] ∨ c ∈ H) →
      (∀ e ≠ [], e <+: hs → c ++ e.map wireHash ∈ C) →
      Tells C H ((storeEvents ps hs us parent).map wireEvent)
        (H ∪ {d | ∃ e ≠ [], e <+: hs ∧ d = c ++ e.map wireHash}) := by
  induction hs with
  | nil =>
    intro H us parent c _ _ _
    have hnone : {d | ∃ e ≠ [], e <+: ([] : List String) ∧ d = c ++ e.map wireHash} = ∅ := by
      ext d
      simp
    rw [hnone, Set.union_empty]
    exact .nil H
  | cons h hs ih =>
    intro H us parent c hparent hc hC
    have hone : c ++ [wireHash h] ∈ C := hC [h] (by simp) ⟨hs, rfl⟩
    have hrest := @ih (insert (c ++ [wireHash h]) H) (us.drop ps) (some (hashStrToInt64 h))
      (c ++ [wireHash h]) (by simp [wireHash]) (.inr (Set.mem_insert _ _)) (by
        intro e hne hpre
        rw [append_assoc]
        exact hC (h :: e) (cons_ne_nil _ _) (cons_prefix_cons.mpr ⟨rfl, hpre⟩))
    have hset : insert (c ++ [wireHash h]) H ∪
          {d | ∃ e ≠ [], e <+: hs ∧ d = c ++ [wireHash h] ++ e.map wireHash} =
        H ∪ {d | ∃ e ≠ [], e <+: h :: hs ∧ d = c ++ e.map wireHash} := by
      ext d
      constructor
      · rintro ((rfl | hd) | ⟨e, hne, hpre, rfl⟩)
        · exact .inr ⟨[h], by simp, ⟨hs, rfl⟩, rfl⟩
        · exact .inl hd
        · refine .inr ⟨h :: e, cons_ne_nil _ _, cons_prefix_cons.mpr ⟨rfl, hpre⟩, ?_⟩
          rw [append_assoc]
          rfl
      · rintro (hd | ⟨e, hne, hpre, rfl⟩)
        · exact .inl (.inr hd)
        · -- the first page, or one after it
          obtain ⟨x, e, rfl⟩ := exists_cons_of_ne_nil hne
          obtain ⟨rfl, hrest⟩ := cons_prefix_cons.mp hpre
          cases e with
          | nil => exact .inl (.inl rfl)
          | cons y e =>
            refine .inr ⟨y :: e, cons_ne_nil _ _, hrest, ?_⟩
            rw [append_assoc]
            rfl
    rw [hset] at hrest
    exact .cons ⟨c, wireHash h, hparent, rfl, hc, hone, rfl⟩ hrest

/-! ## Section 3: The chains of a cache -/

theorem hashChain_take {w : List Letter} {all : List String} (h : chain cfg w = some all) {j : Nat}
    (hj : j ≤ all.length) :
    hashChain cfg (w.take (j * cfg.pageSize)) = (all.take j).map wireHash := by
  have hle : j * cfg.pageSize ≤ w.length := by
    rw [chain_length h] at hj
    exact (Nat.le_div_iff_mul_le cfg.pageSize_pos).mp hj
  have hcut := chain_take (Nat.dvd_mul_left _ _) hle h
  rw [Nat.mul_div_cancel _ cfg.pageSize_pos] at hcut
  exact hashChain_of_chain hcut

theorem isPagePrefix_iff {w p : List Letter} {all : List String} (h : chain cfg w = some all) :
    IsPagePrefix cfg.pageSize p w ↔
      ∃ j, 0 < j ∧ j ≤ all.length ∧ p = w.take (j * cfg.pageSize) := by
  have hps := cfg.pageSize_pos
  rw [chain_length h]
  constructor
  · intro hp
    have htake := prefix_iff_eq_take.mp hp.isPrefix
    have hdiv := Nat.div_mul_cancel hp.dvd
    refine ⟨p.length / cfg.pageSize, Nat.div_pos hp.page_le hps,
      Nat.div_le_div_right hp.isPrefix.length_le, ?_⟩
    rw [hdiv]
    exact htake
  · rintro ⟨j, hpos, hj, rfl⟩
    have hle := (Nat.le_div_iff_mul_le hps).mp hj
    have hlen : (w.take (j * cfg.pageSize)).length = j * cfg.pageSize := by
      rw [length_take, min_eq_left hle]
    refine ⟨ne_nil_of_length_pos ?_, ?_, take_prefix _ _⟩
    · rw [hlen]
      exact Nat.mul_pos hpos hps
    · rw [hlen]
      exact Nat.dvd_mul_left _ _

section Cache

variable {s t : RadixCache}

theorem chain_of_mem_keys (h : HashInv cfg s) {p : List Letter} (hp : p ∈ (s.assoc cfg).keys) :
    ∃ all, chain cfg p = some all ∧ all ≠ [] := by
  obtain ⟨i, c, hi, hpre⟩ := TreeInv.mem_keys_assoc_iff.mp hp
  obtain ⟨all, hall, _⟩ := h hi
  have hcut := chain_take hpre.dvd hpre.isPrefix.length_le hall
  rw [← prefix_iff_eq_take.mp hpre.isPrefix] at hcut
  refine ⟨_, hcut, ne_nil_of_length_pos ?_⟩
  rw [chain_length hcut]
  exact Nat.div_pos hpre.page_le cfg.pageSize_pos

theorem heldChains_prefixClosed (h : HashInv cfg s) : PrefixClosed (heldChains cfg s) := by
  rintro c d ⟨p, hp, hpc⟩ hne
  obtain ⟨i, n, hi, hpre⟩ := TreeInv.mem_keys_assoc_iff.mp hp
  obtain ⟨all, hall, _⟩ := h hi
  obtain ⟨j, hpos, hj, rfl⟩ := (isPagePrefix_iff hall).mp hpre
  rw [hashChain_take hall hj] at hpc
  -- the beginning is the chain of its own number of pages
  have hlen := congrArg List.length hpc
  rw [length_map, length_take, min_eq_left hj, length_append] at hlen
  have hc : c = (all.take c.length).map wireHash := by
    have htake := congrArg (List.take c.length) hpc
    rw [take_left, ← map_take, take_take, min_eq_left (by omega)] at htake
    exact htake.symm
  have hcpos := length_pos_of_ne_nil hne
  refine ⟨(s.view.word i).take (c.length * cfg.pageSize), ?_, ?_⟩
  · exact TreeInv.mem_keys_assoc_iff.mpr
      ⟨i, n, hi, (isPagePrefix_iff hall).mpr ⟨c.length, hcpos, by omega, rfl⟩⟩
  · rw [hashChain_take hall (by omega)]
    exact hc.symm

/-- The chains of a node's own pages go on from the chain of the node above it. -/
theorem hashChain_pagesOf (inv : TreeInv cfg.pageSize s.view) {i q : Nat} {n : NodeCore}
    (hi : s.view.core i = some n) (hq : n.parent = some q) {above own : List String}
    (habove : chain cfg (s.view.word q) = some above)
    (hall : chain cfg (s.view.word i) = some (above ++ own)) (d : List Int64) :
    (∃ p ∈ s.view.pagesOf cfg.pageSize i, hashChain cfg p = d) ↔
      ∃ e ≠ [], e <+: own ∧ d = above.map wireHash ++ e.map wireHash := by
  have hps := cfg.pageSize_pos
  obtain ⟨q', qn, hq', hqn⟩ := inv.exists_parent hi (inv.ne_root hi hq)
  rw [hq] at hq'
  cases hq'
  have hlen : (s.view.word q).length = above.length * cfg.pageSize := by
    rw [chain_length habove, Nat.div_mul_cancel (inv.trie.word_dvd (TreeInv.trie_at hqn))]
  constructor
  · rintro ⟨p, ⟨n', r, hn', hr, hp, hlt⟩, rfl⟩
    rw [hi] at hn'
    cases hn'
    rw [hq] at hr
    cases hr
    obtain ⟨j, hpos, hj, rfl⟩ := (isPagePrefix_iff hall).mp hp
    have habj : above.length < j := by
      rw [hlen, length_take] at hlt
      exact Nat.lt_of_mul_lt_mul_right (lt_of_lt_of_le hlt (min_le_left _ _))
    rw [length_append] at hj
    refine ⟨own.take (j - above.length), ?_, take_prefix _ _, ?_⟩
    · apply ne_nil_of_length_pos
      rw [length_take]
      omega
    · rw [hashChain_take hall (by rw [length_append]; exact hj), take_append,
        take_of_length_le (by omega), map_append]
  · rintro ⟨e, hne, hpre, rfl⟩
    have hepos := length_pos_of_ne_nil hne
    have hele := hpre.length_le
    have hj : above.length + e.length ≤ (above ++ own).length := by
      rw [length_append]
      omega
    refine ⟨(s.view.word i).take ((above.length + e.length) * cfg.pageSize), ?_, ?_⟩
    · refine ⟨n, q, hi, hq, (isPagePrefix_iff hall).mpr ⟨_, by omega, hj, rfl⟩, ?_⟩
      have hle : (above.length + e.length) * cfg.pageSize ≤ (s.view.word i).length := by
        rw [chain_length hall] at hj
        exact (Nat.le_div_iff_mul_le hps).mp hj
      rw [length_take, min_eq_left hle, hlen]
      exact Nat.mul_lt_mul_of_pos_right (by omega) hps
    · rw [hashChain_take hall hj, take_append, take_of_length_le (by omega),
        Nat.add_sub_cancel_left, ← prefix_iff_eq_take.mp hpre, map_append]

end Cache

/-! ## Section 4: What a cache reports -/

/-- The pages of `K` are told apart by their chains, which are in `C`. -/
structure Charted (cfg : CacheConfig) (K : Set (List Letter)) (C : Set (List Int64)) : Prop where
  mem : ∀ p ∈ K, hashChain cfg p ∈ C
  inj : ∀ p ∈ K, ∀ q ∈ K, hashChain cfg p = hashChain cfg q → p = q

/-- A reader that holds `H` and reads the events sent and those still queued ends with the chains
of the cache. -/
structure Reported (cfg : CacheConfig) (K : Set (List Letter)) (C H : Set (List Int64))
    (sent : List KvCacheEvent) (s : RadixCache) : Prop where
  hash : HashInv cfg s
  keys : (s.assoc cfg).keys ⊆ K
  told : Tells C H (sent ++ s.kvEventQueue.map wireEvent) (heldChains cfg s)

section Reports

variable {K : Set (List Letter)} {C H : Set (List Int64)} {sent : List KvCacheEvent}
  {s t : RadixCache}

theorem Reported.silent (h : Reported cfg K C H sent s) (hs : Silent cfg s t) :
    Reported cfg K C H sent t := by
  refine ⟨hs.hash, ?_, ?_⟩
  · rw [hs.assoc]
    exact h.keys
  · rw [hs.events, heldChains, hs.assoc]
    exact h.told

theorem Reported.extend (h : Reported cfg K C H sent s) (hhash : HashInv cfg t)
    (hkeys : (t.assoc cfg).keys ⊆ K) {new : List KvEvent}
    (hev : t.kvEventQueue = s.kvEventQueue ++ new)
    (htold : Tells C (heldChains cfg s) (new.map wireEvent) (heldChains cfg t)) :
    Reported cfg K C H sent t := by
  refine ⟨hhash, hkeys, ?_⟩
  rw [hev, map_append, ← append_assoc]
  exact h.told.append htold

/-- A new leaf announces the chains of its pages, each after the one before it. -/
theorem Reported.inserted (hon : cfg.enableKvCacheEvents = true) (hKC : Charted cfg K C)
    (h : Reported cfg K C H sent s) (inv : TreeInv cfg.pageSize s.view) {key : RadixKey}
    {value : List Nat} {res : Option InsertResult} (hins : Inserted cfg s key value t res)
    (hfit : ∀ u ∈ key.units, (unitWords u).isSome)
    (hK : ∀ p, IsPagePrefix cfg.pageSize p key.letters → p ∈ K) : Reported cfg K C H sent t := by
  cases hins with
  | found hre _ _ => exact h.silent (hre.silent inv h.hash)
  | @added s₁ s₂ _ now priority chunked ok node d nd rest hre hnode hang hword _ hadd hview hev =>
    have h₁ := h.silent (hre.silent inv h.hash)
    have inv₁ := hre.inv inv
    have hunits : key.units = unitsOf (s₁.view.word node) ++ rest.units := by
      rw [← unitsOf_letters, ← hword, ← unitsOf_letters]
      simp [unitsOf]
    obtain ⟨hhash, hs, parent, hnew, hqueue, hparent⟩ := recordStoreEvent_new hon inv₁ h₁.hash hnode
      hang hadd hview hev fun u hu => hfit u (by rw [hunits]; exact mem_append_right _ hu)
    have hview' := (view_recordStoreEvent hev).trans hview
    have inv' : TreeInv cfg.pageSize t.view := by
      rw [hview']
      exact inv₁.addLeaf hang
    have hleaf : t.view.core s₁.counter = some (.leaf node rest (value.drop d)) := by
      rw [hview']
      exact inv₁.addLeaf_new hang
    have hwnew : t.view.word s₁.counter = key.letters := by
      rw [hview', show s₁.counter = s₁.view.counter from rfl, inv₁.word_addLeaf_new hang, hword]
    have hwnode : t.view.word node = s₁.view.word node := by
      rw [hview', inv₁.word_addLeaf hang hang.node_at]
    -- the chain of the leaf is that of the node above, then its own hashes
    obtain ⟨above, habove, _⟩ := h₁.hash hang.node_at
    obtain ⟨all, hall, hown⟩ := hhash hleaf
    have hdvd := inv₁.trie.word_dvd (TreeInv.trie_at hang.node_at)
    change cfg.pageSize ∣ (s₁.view.word node).length at hdvd
    have hsplit : all = above ++ hs := by
      have hcut := chain_take hdvd (by rw [hwnew, ← hword, length_append]; omega) hall
      rw [hwnew, ← hword, take_left, habove] at hcut
      rw [hnew, hwnew] at hown
      simp only [ownHashes, NodeCore.leaf, Option.some.injEq] at hown
      have hfront : key.letters.length - rest.len = (s₁.view.word node).length := by
        rw [← hword, length_append, RadixKey.letters_length]
        omega
      rw [hfront] at hown
      rw [Option.some.inj hcut, hown, take_append_drop]
    subst hsplit
    have hpages := hashChain_pagesOf inv' hleaf rfl (by rw [hwnode]; exact habove) hall
    have hkeys := mem_keys_addLeaf inv₁ hang hview'
    have hkeysK : ∀ p ∈ t.view.pagesOf cfg.pageSize s₁.counter, p ∈ K := by
      rintro p ⟨_, _, _, _, hp, _⟩
      rw [hwnew] at hp
      exact hK p hp
    -- the chain above is held already
    have hheld : above.map wireHash = [] ∨ above.map wireHash ∈ heldChains cfg s₁ := by
      by_cases hnil : s₁.view.word node = []
      · left
        have hlen := chain_length habove
        rw [hnil, length_nil, Nat.zero_div] at hlen
        rw [length_eq_zero_iff.mp hlen, map_nil]
      · right
        exact ⟨s₁.view.word node, TreeInv.mem_keys_assoc_iff.mpr
          ⟨node, _, hang.node_at, hnil, hdvd, prefix_rfl⟩, hashChain_of_chain habove⟩
    have hlast : parent.map Int64.ofInt = (above.map wireHash).getLast? := by
      rw [hparent above habove, getLast?_map, Option.map_map]
      rfl
    have htold := @tells_storeEvents C cfg.pageSize hs (heldChains cfg s₁) rest.units parent
      (above.map wireHash) hlast hheld (by
        intro e hne hpre
        obtain ⟨p, hp, hpe⟩ := (hpages _).mpr ⟨e, hne, hpre, rfl⟩
        rw [← hpe]
        exact hKC.mem p (hkeysK p hp))
    have hset : heldChains cfg s₁ ∪
          {d | ∃ e ≠ [], e <+: hs ∧ d = above.map wireHash ++ e.map wireHash} =
        heldChains cfg t := by
      ext d
      rw [Set.mem_union, Set.mem_ofPred_eq, ← hpages]
      constructor
      · rintro (⟨p, hp, hd⟩ | ⟨p, hp, hd⟩)
        · exact ⟨p, (hkeys p).mpr (.inl hp), hd⟩
        · exact ⟨p, (hkeys p).mpr (.inr hp), hd⟩
      · rintro ⟨p, hp, hd⟩
        rcases (hkeys p).mp hp with hp | hp
        · exact .inl ⟨p, hp, hd⟩
        · exact .inr ⟨p, hp, hd⟩
    rw [hset] at htold
    apply h₁.extend hhash ?_ hqueue htold
    intro p hp
    rcases (hkeys p).mp hp with hp | hp
    · exact h₁.keys hp
    · exact hkeysK p hp

/-- An evicted leaf withdraws the chains of its pages, and no others. -/
theorem Reported.evicted (hon : cfg.enableKvCacheEvents = true) (hC : TreeState.Determined C)
    (hKC : Charted cfg K C) (h : Reported cfg K C H sent s) (inv : TreeInv cfg.pageSize s.view)
    {s₁ : RadixCache} {x p : Nat} {xn pn : TreeNode} {ok : Bool} (hx : s.nodes x = some xn)
    (hp : s.nodes p = some pn) (prune : TreeInv.Prune s.view x xn.toNodeCore p pn.toNodeCore)
    (hdel : s.deleteLeaf cfg x = some s₁)
    (hview : s₁.view = s.view.removeLeaf cfg.pageSize x xn.toNodeCore p pn.toNodeCore)
    (hev : s₁.recordRemoveEvent cfg xn = (t, ok)) : Reported cfg K C H sent t := by
  have hh₁ : HashInv cfg s₁ := hashInv_deleteLeaf inv h.hash hx hp prune hdel hview
  have hq₁ := (hashAt_deleteLeaf hx hp prune.parent_eq hdel).2
  obtain ⟨all, hall, hown⟩ := h.hash prune.node_at
  have hown : xn.hashValue = some (ownHashes cfg (s.view.word x) xn.key.len all) := by
    simpa [hashAt, hx] using hown
  have hdvd : cfg.pageSize ∣ xn.key.len := by
    have := inv.trie.label_dvd (TreeInv.trie_at prune.node_at)
    simpa [TreeLinks.cell] using this
  have hle : xn.key.len ≤ (s.view.word x).length := len_le_word inv prune.node_at
  have hlen := length_ownHashes hall hdvd hle
  have hpos : 0 < (ownHashes cfg (s.view.word x) xn.key.len all).length := by
    rw [hlen]
    exact Nat.div_pos (inv.page_le_len prune.node_at prune.parent_eq) cfg.pageSize_pos
  have hpages := mem_ownHashes_iff inv prune.node_at prune.parent_eq hall
  change ∀ y, y ∈ (ownHashes cfg (s.view.word x) xn.key.len all).map hashStrToInt64 ↔ _ at hpages
  generalize ownHashes cfg (s.view.word x) xn.key.len all = own at hown hlen hpos hpages
  have htake : own.take (numPages cfg.pageSize xn.key.len) = own := by
    rw [numPages_of_dvd cfg.pageSize_pos hdvd]
    exact take_of_length_le hlen.le
  have hne : own.map hashStrToInt64 ≠ [] := by
    intro hnil
    rw [map_eq_nil_iff] at hnil
    rw [hnil] at hpos
    exact absurd hpos (lt_irrefl 0)
  simp only [recordRemoveEvent, hon, if_true, hown, Option.or, htake, if_neg hne] at hev
  cases hev
  have hkeys : (s₁.assoc cfg).keys = (s.assoc cfg).keys \ s.view.pagesOf cfg.pageSize x := by
    unfold RadixCache.assoc
    rw [hview, inv.assoc_removeLeaf prune, keys_remove]
  have hkeysK : ∀ w ∈ s.view.pagesOf cfg.pageSize x, w ∈ K := by
    rintro w ⟨c, q, hc, _, hw, _⟩
    exact h.keys (TreeInv.mem_keys_assoc_iff.mpr ⟨x, c, hc, hw⟩)
  -- the withdrawn hashes end the chains of the leaf's pages only
  have hgone : ∀ w ∈ (s.assoc cfg).keys, w ∈ s.view.pagesOf cfg.pageSize x ↔
      ∃ y ∈ (own.map hashStrToInt64).map Int64.ofInt, (hashChain cfg w).getLast? = some y := by
    intro w hw
    constructor
    · intro hmem
      obtain ⟨alls, halls, hnil⟩ := chain_of_mem_keys h.hash hw
      obtain ⟨digest, hdigest⟩ := Option.isSome_iff_exists.mp (getLast?_isSome.mpr hnil)
      have hblock : blockHash cfg w = some (hashStrToInt64 digest) := by
        simp [blockHash, halls, hdigest]
      refine ⟨Int64.ofInt (hashStrToInt64 digest), ?_, ?_⟩
      · exact mem_map_of_mem ((hpages _).mpr ⟨w, hmem, hblock⟩)
      · rw [getLast?_hashChain, hblock]
        rfl
    · rintro ⟨y, hy, hlast⟩
      obtain ⟨z, hz, rfl⟩ := mem_map.mp hy
      obtain ⟨w', hw', hblock⟩ := (hpages z).mp hz
      have hlast' : (hashChain cfg w').getLast? = some (Int64.ofInt z) := by
        rw [getLast?_hashChain, hblock]
        rfl
      have heq := hC.unique _ (hKC.mem w (h.keys hw)) _ (hKC.mem w' (hkeysK w' hw'))
        (hlast.trans hlast'.symm)
      rw [hKC.inj w (h.keys hw) w' (hkeysK w' hw') heq]
      exact hw'
  have hset : heldChains cfg s₁ = {c | c ∈ heldChains cfg s ∧
      ∀ y ∈ (own.map hashStrToInt64).map Int64.ofInt, c.getLast? ≠ some y} := by
    ext c
    constructor
    · rintro ⟨w, hw, rfl⟩
      rw [hkeys] at hw
      refine ⟨⟨w, hw.1, rfl⟩, ?_⟩
      intro y hy hlast
      exact hw.2 ((hgone w hw.1).mpr ⟨y, hy, hlast⟩)
    · rintro ⟨⟨w, hw, rfl⟩, hnot⟩
      refine ⟨w, ?_, rfl⟩
      rw [hkeys]
      refine ⟨hw, fun hmem => ?_⟩
      obtain ⟨y, hy, hlast⟩ := (hgone w hw).mp hmem
      exact hnot y hy hlast
  have htold : Announces C (heldChains cfg s) (heldChains cfg s₁)
      (wireEvent (.blockRemoved (own.map hashStrToInt64))) := ⟨hset, heldChains_prefixClosed hh₁⟩
  have hqueue : s₁.kvEventQueue ++ [.blockRemoved (own.map hashStrToInt64)] =
      s.kvEventQueue ++ [.blockRemoved (own.map hashStrToInt64)] := by rw [hq₁]
  refine h.extend (hashInv_congr hh₁ rfl fun _ => rfl) ?_ hqueue (.single htold)
  change (s₁.assoc cfg).keys ⊆ K
  rw [hkeys]
  exact fun w hw => h.keys hw.1

theorem Reported.reset (hon : cfg.enableKvCacheEvents = true) (h : Reported cfg K C H sent s)
    (now : Int) : Reported cfg K C H sent (s.reset cfg now) := by
  have hnone : ∀ p, p ∉ ((s.reset cfg now).assoc cfg).keys := by
    rintro p ⟨pg, hp⟩
    rw [assoc_reset] at hp
    exact hp
  have hqueue : (s.reset cfg now).kvEventQueue = s.kvEventQueue ++ [.allBlocksCleared] := by
    simp [RadixCache.reset, hon]
  refine h.extend (hashInv_reset now) (fun p hp => absurd hp (hnone p)) hqueue (.single ?_)
  change heldChains cfg (s.reset cfg now) = ∅
  ext c
  constructor
  · rintro ⟨p, hp, _⟩
    exact absurd hp (hnone p)
  · exact fun hc => hc.elim

end Reports

/-! ## Section 5: Steps -/

/-- The operations of a cache that the index follows: keys of 32-bit ids without `extra_key`, and no
release of a session. -/
def CacheOp.Plain : CacheOp → Prop
  | .insert _ key _ _ _ => key.extraKey = none ∧ Router.Is32Bit key
  | .releaseRadixSession _ _ => False
  | _ => True

instance (op : CacheOp) : Decidable (CacheOp.Plain op) :=
  match op with
  | .insert _ key _ _ _ =>
    inferInstanceAs (Decidable (key.extraKey = none ∧ ∀ t ∈ key.rawTokenIds, 0 ≤ t ∧ t < 2 ^ 32))
  | .releaseRadixSession _ _ => isFalse id
  | .matchPrefix _ _ | .incLockRef _ | .decLockRef _ | .evict _ _ | .tagSessionLeaf _ _ _ _ |
      .reset _ =>
    isTrue trivial

/-- Every operation announces what it does to the chains of the cache. -/
theorem Reported.step (hon : cfg.enableKvCacheEvents = true) {K : Set (List Letter)}
    {C H : Set (List Int64)} {sent : List KvCacheEvent} (hC : TreeState.Determined C)
    (hKC : Charted cfg K C) {r r' : CacheRun} (h : RunInv cfg r)
    (hr : Reported cfg K C H sent r.cache) {op : CacheOp} (hvalid : op.Valid cfg r)
    (hplain : CacheOp.Plain op) (hpages : op.pages cfg ⊆ K) (hstep : r.step cfg op = some r') :
    Reported cfg K C H sent r'.cache := by
  apply step_rule h hr.hash hvalid hstep fun hs => hr.silent hs
  have htree : TreeInv cfg.pageSize r.cache.view := h.tree
  cases op with
  | insert now key value priority chunked =>
    intro _ t res hins
    exact hr.inserted hon hKC htree hins (unitWords_isSome hplain.2) fun p hp => hpages hp
  | evict order numTokens =>
    intro t res heq
    obtain ⟨t', res', acc, heq', ht, _, _⟩ := evict_rule cfg order numTokens
      (fun t _ => Reported cfg K C H sent t)
      (fun hP inv hx hp prune hdel hview hev =>
        hP.evicted hon hC hKC inv hx hp prune hdel hview hev)
      hr htree
    rw [heq] at heq'
    cases heq'
    exact ht
  | releaseRadixSession iter sid => exact hplain.elim
  | reset now => exact hr.reset hon now
  | _ => trivial

namespace TreeState.Indexes

theorem event {C : Set (List Int64)} {H : KvWorkerId → Set (List Int64)} {s : TreeState}
    {word : NodeId → List Int64} (hC : Determined C) (h : Indexes C H s word) (order : HashOrder)
    (now : Nat) {w : KvWorkerId} {H' : Set (List Int64)} {e : KvCacheEvent}
    (he : Announces C (H w) H' e) :
    ∃ word', Indexes C (update H w H') (IndexState.applyEvent s order now w e) word' := by
  cases e with
  | blockStored parent hashes =>
    obtain ⟨c, x, rfl, rfl, hc, hmem, rfl⟩ := he
    exact h.stored hC order now hc hmem
  | blockRemoved hashes =>
    obtain ⟨rfl, hclosed⟩ := he
    refine ⟨word, h.removed order ?_⟩
    rw [show dropLast H w hashes w = _ from update_self ..]
    exact hclosed
  | allBlocksCleared =>
    cases he
    exact ⟨word, h.cleared order w⟩

end TreeState.Indexes

end Sglang.Router
