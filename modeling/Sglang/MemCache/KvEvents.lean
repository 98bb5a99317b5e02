import Sglang.MemCache.PageHash

/-!
# KV Placement Events

A subscriber replays the `BlockStored`, `BlockRemoved` and `AllBlocksCleared` events of a cache
and tries to hold the hashes of the pages in the tree.

- `HashInv`: the hashes a node carries are those of its own pages, in the chain from the root,
- `Silent`: a change that announces nothing, and leaves what is stored as it was,
- `recordStoreEvent_new`, `recordRemoveEvent_of`: what the events of a node name.
-/

namespace Sglang.MemCache

open List Function
open Lib

/-! ## Section 1: Subscribers -/

/-- What a subscriber does with one event. -/
def applyEvent (m : Finset Int) : KvEvent → Finset Int
  | .blockStored h _ _ _ => insert h m
  | .blockRemoved hs => m \ hs.toFinset
  | .allBlocksCleared => ∅

/-- The set a subscriber holds after a stream of events. -/
def replay (m : Finset Int) (events : List KvEvent) : Finset Int := events.foldl applyEvent m

theorem replay_append (m : Finset Int) (es es' : List KvEvent) :
    replay m (es ++ es') = replay (replay m es) es' := foldl_append

theorem mem_replay_storeEvents (ps : Nat) (hs : List String) (us : List KeyUnit)
    (parent : Option Int) (m : Finset Int) (x : Int) :
    x ∈ replay m (RadixCache.storeEvents ps hs us parent) ↔
      x ∈ m ∨ x ∈ hs.map hashStrToInt64 := by
  induction hs generalizing us parent m with
  | nil => simp [RadixCache.storeEvents, replay]
  | cons h hs ih =>
    have hcons : replay m (RadixCache.storeEvents ps (h :: hs) us parent) =
        replay (insert (hashStrToInt64 h) m)
          (RadixCache.storeEvents ps hs (us.drop ps) (some (hashStrToInt64 h))) := rfl
    rw [hcons, ih, Finset.mem_insert, map_cons, mem_cons]
    tauto

namespace RadixCache

variable {cfg : CacheConfig}

def storedHashes (cfg : CacheConfig) (s : RadixCache) : Set Int :=
  {h | ∃ p ∈ (s.assoc cfg).keys, blockHash cfg p = some h}

/-! ## Section 2: Nodes carry the hashes of their pages -/

/-- `node.hash_value`, if there is such a node. -/
def hashAt (s : RadixCache) (i : Nat) : Option (Option (List String)) :=
  (s.nodes i).map TreeNode.hashValue

/-- The hashes of the pages of the last `len` units of a word. -/
def ownHashes (cfg : CacheConfig) (w : List Letter) (len : Nat) (all : List String) :
    List String := all.drop ((w.length - len) / cfg.pageSize)

/-- Every node carries the hashes of its own pages. -/
def HashInv (cfg : CacheConfig) (s : RadixCache) : Prop :=
  ∀ {i c}, s.view.core i = some c → ∃ all, chain cfg (s.view.word i) = some all ∧
    s.hashAt i = some (some (ownHashes cfg (s.view.word i) c.key.len all))

variable {s t s' : RadixCache}

/-- The hashes of a node are those its pages are published under. -/
theorem mem_ownHashes_iff (inv : TreeInv cfg.pageSize s.view) {i p : Nat}
    {c : NodeCore} (hi : s.view.core i = some c) (hp : c.parent = some p) {all : List String}
    (hall : chain cfg (s.view.word i) = some all) (x : Int) :
    x ∈ (ownHashes cfg (s.view.word i) c.key.len all).map hashStrToInt64 ↔
      ∃ w ∈ s.view.pagesOf cfg.pageSize i, blockHash cfg w = some x := by
  have hps := cfg.pageSize_pos
  obtain ⟨q, pn, hq, hpn⟩ := inv.exists_parent hi (inv.ne_root hi hp)
  rw [hp] at hq
  cases hq
  have hword := inv.word_child hi hp
  have hfront : (s.view.word i).length - c.key.len = (s.view.word p).length := by
    rw [hword, length_append, RadixKey.letters_length]
    omega
  have hpdvd := inv.trie.word_dvd (TreeInv.trie_at hpn)
  have hlen := chain_length hall
  rw [ownHashes, hfront]
  constructor
  · -- the hash of block `j` is that of the word up to the end of the block
    intro hx
    obtain ⟨h, hmem, rfl⟩ := mem_map.mp hx
    obtain ⟨j, hj, rfl⟩ := getElem_of_mem hmem
    rw [length_drop] at hj
    rw [getElem_drop]
    have hlt : (s.view.word p).length / cfg.pageSize + j < all.length := by omega
    refine ⟨(s.view.word i).take (((s.view.word p).length / cfg.pageSize + j + 1) * cfg.pageSize),
      ?_, blockHash_take hall hlt⟩
    have hle : ((s.view.word p).length / cfg.pageSize + j + 1) * cfg.pageSize ≤
        (s.view.word i).length := by
      rw [hlen] at hlt
      exact (Nat.le_div_iff_mul_le hps).mp hlt
    have hplen : (s.view.word p).length <
        ((s.view.word p).length / cfg.pageSize + j + 1) * cfg.pageSize := by
      rw [Nat.add_mul, Nat.add_mul, Nat.div_mul_cancel hpdvd]
      omega
    refine ⟨c, p, hi, hp, ⟨?_, ?_, take_prefix _ _⟩, ?_⟩
    · exact ne_nil_of_length_pos (by rw [length_take, min_eq_left hle]; omega)
    · rw [length_take, min_eq_left hle]
      exact Nat.dvd_mul_left _ _
    · rw [length_take, min_eq_left hle]
      exact hplen
  · -- a page prefix that is longer than the parent's word ends in a block of the node
    rintro ⟨w, ⟨c', q, hc', hq, hw, hlt⟩, hx⟩
    rw [hi] at hc'
    cases hc'
    rw [hp] at hq
    cases hq
    obtain ⟨m, hm⟩ := hw.dvd
    have hmpos : 0 < m := by
      rcases Nat.eq_zero_or_pos m with rfl | h
      · simp at hm
        exact absurd hm hw.ne_nil
      · exact h
    have htake : w = (s.view.word i).take ((m - 1 + 1) * cfg.pageSize) := by
      rw [Nat.sub_add_cancel hmpos, Nat.mul_comm, ← hm]
      exact prefix_iff_eq_take.mp hw.isPrefix
    have hle := hw.isPrefix.length_le
    have hmall : m - 1 < all.length := by
      rw [hlen]
      have : m ≤ (s.view.word i).length / cfg.pageSize := by
        rw [Nat.le_div_iff_mul_le hps, Nat.mul_comm, ← hm]
        exact hle
      omega
    rw [htake, blockHash_take hall hmall] at hx
    cases hx
    have hge : (s.view.word p).length / cfg.pageSize ≤ m - 1 := by
      have : (s.view.word p).length / cfg.pageSize < m := by
        rw [Nat.div_lt_iff_lt_mul hps, Nat.mul_comm, ← hm]
        exact hlt
      omega
    refine mem_map.mpr ⟨all[m - 1], ?_, rfl⟩
    rw [mem_drop_iff_getElem]
    exact ⟨m - 1 - (s.view.word p).length / cfg.pageSize, by omega, by congr 1; omega⟩

theorem hashInv_congr (h : HashInv cfg s) (hview : t.view = s.view)
    (hhash : ∀ i, t.hashAt i = s.hashAt i) : HashInv cfg t := by
  intro i c hi
  rw [hview] at hi ⊢
  rw [hhash]
  exact h hi

theorem Quiet.hashInv (hq : Quiet s t) (h : HashInv cfg s) : HashInv cfg t :=
  hashInv_congr h hq.view hq.hash

theorem Relocked.hashInv {d : Nat → Int} (rel : Relocked s t d)
    (h : HashInv cfg s) : HashInv cfg t := by
  intro i c hi
  rw [rel.core] at hi
  obtain ⟨c₀, hc₀, rfl⟩ := Option.map_eq_some_iff.mp hi
  obtain ⟨all, hall, hhash⟩ := h hc₀
  rw [rel.word_eq, show t.hashAt i = s.hashAt i from rel.hash i]
  exact ⟨all, hall, hhash⟩

/-- The hashes after a cut: those of the child, cut at the same page. -/
theorem hashAt_split {now : Int} {t u : RadixCache} {child p k x : Nat} {c : TreeNode}
    {pn : NodeCore} (inv : TreeInv cfg.pageSize t.view) (hc : t.nodes child = some c)
    (cut : TreeInv.Cut cfg.pageSize t.view child c.toNodeCore p pn k)
    (heq : t.splitNode cfg now c.key child k = some (u, x)) {hs : List String}
    (hhs : c.hashValue = some hs) :
    u.hashAt t.counter = some (some (hs.take (k / cfg.pageSize))) ∧
      u.hashAt child = some (some (hs.drop (k / cfg.pageSize))) ∧
      (∀ i, i ≠ t.counter → i ≠ child → u.hashAt i = t.hashAt i) ∧
      u.kvEventQueue = t.kvEventQueue := by
  obtain ⟨pnn, hpnn, rfl⟩ := exists_node cut.parent_at
  have hpar : c.parent = some p := cut.parent_eq
  obtain ⟨hxc, hxp, hcp⟩ := inv.split_ne cut
  change t.counter ≠ child at hxc
  change t.counter ≠ p at hxp
  have hpages : (if cfg.pageSize = 1 then k else k / cfg.pageSize) = k / cfg.pageSize := by
    split
    · next h => rw [h, Nat.div_one]
    · rfl
  simp only [splitNode, hc, hpar, hpnn, Option.bind_eq_bind, Option.bind_some, hhs,
    splitNodeHashValue, hpages, Option.some.injEq, Prod.mk.injEq] at heq
  obtain ⟨rfl, _⟩ := heq
  refine ⟨?_, ?_, ?_, rfl⟩
  · simp [hashAt, update_of_ne hxc, update_of_ne hxp]
  · simp [hashAt, update_of_ne hcp]
  · intro i hix hic
    by_cases hip : i = p
    · subst hip
      simp [hashAt, hpnn]
    · simp [hashAt, update_of_ne hip, update_of_ne hic, update_of_ne hix]

/-- A lookup cuts hashes where it cuts pages, and announces nothing. -/
theorem Reshape.hashInv (hre : Reshape cfg s t)
    (inv : TreeInv cfg.pageSize s.view) (h : HashInv cfg s) :
    HashInv cfg t ∧ t.kvEventQueue = s.kvEventQueue := by
  induction hre with
  | refl => exact ⟨h, rfl⟩
  | @touch t i f hf _ ih =>
    have hq := Quiet.modifyNode t i hf
    exact ⟨hq.hashInv ih.1, hq.events.trans ih.2⟩
  | @split t u now child p k x c pn hc cut heq hre ih =>
    obtain ⟨ht, hev⟩ := ih
    have inv' := hre.inv inv
    have hps := cfg.pageSize_pos
    have hview := (view_split hc cut heq).2
    obtain ⟨all, hall, hhash⟩ := ht cut.child_at
    have hhs : c.hashValue = some (ownHashes cfg (t.view.word child) c.key.len all) := by
      simpa [hashAt, hc] using hhash
    obtain ⟨hfront, hback, hrest, hev'⟩ := hashAt_split inv' hc cut heq hhs
    refine ⟨?_, hev'.trans hev⟩
    have hword := inv'.word_child cut.child_at cut.parent_eq
    have hlen : (t.view.word child).length = (t.view.word p).length + c.key.len := by
      rw [hword, length_append, RadixKey.letters_length]
    have hklen : k < c.key.len := cut.lt
    obtain ⟨a, ha⟩ := inv'.trie.word_dvd (TreeInv.trie_at cut.parent_at)
    change (t.view.word p).length = _ at ha
    obtain ⟨b, hb⟩ := cut.dvd
    intro i ci hi
    rw [hview] at hi ⊢
    rcases inv'.splitAt_cases cut hi with ⟨rfl, rfl⟩ | ⟨rfl, rfl⟩ | ⟨rfl, rfl⟩ | ⟨hx, hc', _, hi⟩
    · -- the upper half keeps the first `k / page_size` hashes
      refine ⟨all.take ((t.view.word p).length / cfg.pageSize + k / cfg.pageSize), ?_, ?_⟩
      · have hcut := chain_take (k := (t.view.word p).length + k) (Nat.dvd_add ⟨a, ha⟩ cut.dvd)
          (by omega) hall
        rw [inv'.word_splitAt_front cut]
        rw [hword, take_append, take_of_length_le (by omega), Nat.add_sub_cancel_left]
          at hcut
        rw [hcut, Nat.add_div_of_dvd_right ⟨a, ha⟩]
      · change u.hashAt t.counter = _
        rw [hfront, inv'.word_splitAt_front cut]
        simp only [ownHashes, hlen, Nat.add_sub_cancel, length_append, length_take,
          RadixKey.letters_length, NodeCore.front, RadixKey.len_takeUnits, drop_take,
          Nat.add_sub_cancel_left]
    · -- the lower half keeps the others
      refine ⟨all, by rw [inv'.word_splitAt cut cut.child_at]; exact hall, ?_⟩
      rw [hback, inv'.word_splitAt cut cut.child_at]
      simp only [ownHashes, drop_drop, hlen, NodeCore.back, RadixKey.len_dropUnits,
        Nat.add_sub_cancel]
      rw [show (t.view.word p).length + c.key.len - (c.key.len - k) =
        (t.view.word p).length + k by omega, Nat.add_div_of_dvd_right ⟨a, ha⟩]
    · obtain ⟨allp, hallp, hhashp⟩ := ht cut.parent_at
      rw [inv'.word_splitAt cut cut.parent_at,
        hrest i (inv'.fresh cut.parent_at).ne (inv'.split_ne cut).2.2.symm]
      exact ⟨allp, hallp, hhashp⟩
    · rw [inv'.word_splitAt cut hi, hrest i hx hc']
      exact ht hi

/-- What is stored did not change, nothing was announced, and the hashes are right. -/
structure Silent (cfg : CacheConfig) (s t : RadixCache) : Prop where
  hash : HashInv cfg t
  events : t.kvEventQueue = s.kvEventQueue
  assoc : t.assoc cfg = s.assoc cfg

theorem Silent.quiet {s t u : RadixCache} (h : Silent cfg s t) (hq : Quiet t u) :
    Silent cfg s u where
  hash := hq.hashInv h.hash
  events := hq.events.trans h.events
  assoc := by
    rw [← h.assoc]
    unfold RadixCache.assoc
    rw [hq.view]

theorem silent_refl (h : HashInv cfg s) : Silent cfg s s := ⟨h, rfl, rfl⟩

theorem Quiet.silent (hq : Quiet s t) (h : HashInv cfg s) : Silent cfg s t :=
  (silent_refl h).quiet hq

theorem Reshape.silent (hre : Reshape cfg s t) (inv : TreeInv cfg.pageSize s.view)
    (h : HashInv cfg s) : Silent cfg s t :=
  ⟨(hre.hashInv inv h).1, (hre.hashInv inv h).2, hre.assoc_eq inv⟩

theorem Relocked.silent {d : Nat → Int} (rel : Relocked s t d)
    (h : HashInv cfg s) : Silent cfg s t := ⟨rel.hashInv h, rel.events, rel.assoc_eq⟩

theorem numPages_of_dvd {ps len : Nat} (hps : 0 < ps) (hdvd : ps ∣ len) :
    numPages ps len = len / ps := by
  obtain ⟨m, rfl⟩ := hdvd
  rw [numPages, Nat.mul_div_cancel_left _ hps, Nat.add_sub_assoc hps,
    Nat.mul_add_div hps, Nat.div_eq_of_lt (by omega), Nat.add_zero]

theorem getLast?_ownHashes {w : List Letter} {len : Nat} {all : List String}
    (hall : chain cfg w = some all) (hdvd : cfg.pageSize ∣ len) (hpos : 0 < len)
    (hle : len ≤ w.length) :
    (ownHashes cfg w len all).getLast? = all.getLast? ∧ 0 < (ownHashes cfg w len all).length := by
  have hlen := chain_length hall
  have hlt : (w.length - len) / cfg.pageSize < all.length := by
    obtain ⟨m, rfl⟩ := hdvd
    have hm : 0 < m := Nat.pos_of_mul_pos_left hpos
    rw [hlen, Nat.sub_mul_div]
    have : m ≤ w.length / cfg.pageSize := by
      rw [Nat.le_div_iff_mul_le cfg.pageSize_pos, Nat.mul_comm]
      exact hle
    omega
  refine ⟨?_, ?_⟩
  · rw [ownHashes, getLast?_drop, if_neg (by omega)]
  · rw [ownHashes, length_drop]
    omega

theorem length_ownHashes {w : List Letter} {len : Nat} {all : List String}
    (hall : chain cfg w = some all) (hdvd : cfg.pageSize ∣ len) (hle : len ≤ w.length) :
    (ownHashes cfg w len all).length = len / cfg.pageSize := by
  obtain ⟨m, rfl⟩ := hdvd
  have hm : m ≤ w.length / cfg.pageSize := by
    rw [Nat.le_div_iff_mul_le cfg.pageSize_pos, Nat.mul_comm]
    exact hle
  rw [ownHashes, length_drop, chain_length hall, Nat.sub_mul_div,
    Nat.mul_div_cancel_left _ cfg.pageSize_pos]
  omega

theorem hashAt_addNode {now priority : Int} {chunked : Bool} {node : Nat}
    {nd : TreeNode} {key : RadixKey} {value : List Nat} (hnode : s.nodes node = some nd)
    (hne : node ≠ s.counter)
    (hadd : s.addNode cfg now priority chunked node key value = some (s', s.counter)) :
    (∃ leaf, s'.nodes s.counter = some leaf ∧ leaf.hashValue = none ∧ leaf.key = key ∧
      leaf.parent = some node) ∧
      (∃ nd', s'.nodes node = some nd' ∧ nd'.hashValue = nd.hashValue ∧ nd'.key = nd.key) ∧
      (∀ i, i ≠ s.counter → s'.hashAt i = s.hashAt i) ∧
      s'.kvEventQueue = s.kvEventQueue := by
  simp only [addNode, hnode, Option.bind_eq_bind, Option.bind_some, Option.some.injEq,
    Prod.mk.injEq, and_true] at hadd
  subst hadd
  rw [events_updateLeafStatus, events_updateLeafStatus]
  simp only [hashAt, nodes_updateLeafStatus]
  refine ⟨?_, ?_, ?_, trivial⟩
  · rw [update_of_ne hne.symm, update_self]
    cases chunked <;> exact ⟨_, rfl, rfl, rfl, rfl⟩
  · rw [update_self]
    refine ⟨_, rfl, ?_, ?_⟩ <;> rfl
  · intro i hi
    by_cases hin : i = node
    · subst hin
      simp [hnode]
    · rw [update_of_ne hin, update_of_ne hi]

/-- The event of a new leaf chains its pages after those of its parent. -/
theorem recordStoreEvent_new {now priority : Int} {chunked ok : Bool} {s s₂ s' : RadixCache}
    {node : Nat} {nd : TreeNode} {key : RadixKey} {value : List Nat}
    (hon : cfg.enableKvCacheEvents = true) (inv : TreeInv cfg.pageSize s.view)
    (h : HashInv cfg s) (hnode : s.nodes node = some nd)
    (hang : TreeInv.Hang cfg.pageSize s.view node nd.toNodeCore key value)
    (hadd : s.addNode cfg now priority chunked node key value = some (s₂, s.counter))
    (hview : s₂.view = s.view.addLeaf cfg.pageSize node nd.toNodeCore key value)
    (hev : s₂.recordStoreEvent cfg s.counter = (s', ok))
    (hfit : ∀ u ∈ key.units, (unitWords u).isSome) :
    HashInv cfg s' ∧ ∃ hs parent, s'.hashAt s.counter = some (some hs) ∧
      s'.kvEventQueue = s.kvEventQueue ++ storeEvents cfg.pageSize hs key.units parent ∧
      ∀ all, chain cfg (s.view.word node) = some all →
        parent = all.getLast?.map hashStrToInt64 := by
  have hps := cfg.pageSize_pos
  have hne : node ≠ s.counter := (inv.fresh hang.node_at).ne
  obtain ⟨⟨leaf, hleaf, hnone, hkey, hpar⟩, ⟨nd', hnd', hhash', hkey'⟩, hrest, hqueue⟩ :=
    hashAt_addNode hnode hne hadd
  obtain ⟨all, hall, hown⟩ := h hang.node_at
  have hown : nd.hashValue = some (ownHashes cfg (s.view.word node) nd.key.len all) := by
    simpa [hashAt, hnode] using hown
  have hnddvd : cfg.pageSize ∣ nd.key.len := by
    have := inv.trie.label_dvd (TreeInv.trie_at hang.node_at)
    simpa [TreeLinks.cell] using this
  -- the last hash of the parent is that of its word
  have hlast : node ≠ s.view.rootNode → 0 < nd.key.len ∧
      0 < (ownHashes cfg (s.view.word node) nd.key.len all).length ∧
      (ownHashes cfg (s.view.word node) nd.key.len all).getLast? = all.getLast? := by
    intro hroot
    obtain ⟨p, pn, hp, hpn⟩ := inv.exists_parent hang.node_at hroot
    have hpos : 0 < nd.key.len := Nat.lt_of_lt_of_le hps (inv.page_le_len hang.node_at hp)
    have hle : nd.key.len ≤ (s.view.word node).length := by
      rw [inv.word_child hang.node_at hp, length_append, RadixKey.letters_length]
      omega
    obtain ⟨hlast, hlen⟩ := getLast?_ownHashes hall hnddvd hpos hle
    exact ⟨hpos, hlen, hlast⟩
  have hrootNil : node = s.view.rootNode → all = [] := by
    intro hroot
    have := chain_length hall
    rw [hroot, inv.trie.word_root] at this
    simpa using this
  -- the digest that the new pages are chained after
  have hprior : s₂.parentHash leaf = lastDigest all none := by
    simp only [parentHash, hpar, hnd', hhash', hkey', hown, Option.bind_eq_bind, Option.bind_some]
    by_cases hroot : node = s.view.rootNode
    · obtain ⟨rn, hrn, _, hlen⟩ := inv.root_live
      rw [← hroot, core_at hnode] at hrn
      cases hrn
      rw [if_neg (by rintro ⟨hpos, _⟩; exact absurd hlen (by omega)), hrootNil hroot]
      rfl
    · obtain ⟨hpos, hlen, hlast⟩ := hlast hroot
      rw [if_pos ⟨hpos, hlen⟩, hlast, lastDigest]
      simp
  obtain ⟨hs, hhs⟩ := Option.isSome_iff_exists.mp
    (hashPages_isSome (n := key.len / cfg.pageSize) hfit)
  have hcomp : s₂.computeNodeHashValues cfg leaf = some hs := by
    rw [computeNodeHashValues, getHashStr, hkey, hprior, numPages_of_dvd hps hang.dvd]
    exact hhs
  have htake : hs.take (numPages cfg.pageSize key.len) = hs := by
    rw [numPages_of_dvd hps hang.dvd]
    exact take_of_length_le (hashPages_length hhs).le
  have hview' := view_recordStoreEvent hev
  simp only [recordStoreEvent, hon, if_true, hleaf, hnone, Option.none_or, hcomp, hkey,
    htake] at hev
  obtain ⟨hs', _⟩ := Prod.mk.inj hev
  have hnew : s'.hashAt s.counter = some (some hs) := by
    rw [← hs']
    simp [hashAt, setNode]
  have hold' : ∀ i, i ≠ s.counter → s'.hashAt i = s.hashAt i := by
    intro i hix
    rw [← hrest i hix, ← hs']
    simp [hashAt, setNode, update_of_ne hix]
  refine ⟨?_, hs, _, hnew, by rw [← hs', ← hqueue]; rfl, ?_⟩
  swap
  · intro all' hall'
    rw [hall] at hall'
    cases hall'
    have hroot₂ : s₂.rootNode = s.view.rootNode := by
      change s₂.view.rootNode = s.view.rootNode
      rw [hview]
      simp [TreeView.addLeaf]
    simp only [parentBlockHash, hpar, setNode, update_of_ne hne, hnd', hhash', hown,
      Option.bind_eq_bind, Option.bind_some, hroot₂]
    split
    · next hroot => simp [hrootNil hroot]
    · next hroot => rw [(hlast hroot).2.2]
  intro i c hi
  rw [hview', hview] at hi ⊢
  rcases TreeInv.addLeaf_cases hi with ⟨rfl, rfl⟩ | hold
  · refine ⟨all ++ hs, ?_, ?_⟩
    · rw [inv.word_addLeaf_new hang]
      exact chain_append (inv.trie.word_dvd (TreeInv.trie_at hang.node_at)) hall hhs
    · rw [inv.word_addLeaf_new hang]
      have hlen := chain_length hall
      simp only [ownHashes, NodeCore.leaf, length_append, RadixKey.letters_length,
        Nat.add_sub_cancel]
      rw [← hlen, drop_left]
      exact hnew
  · obtain ⟨c₀, hc₀, hlen⟩ : ∃ c₀, s.view.core i = some c₀ ∧ c.key.len = c₀.key.len := by
      rcases hold with ⟨rfl, rfl⟩ | ⟨_, _, hi⟩
      · exact ⟨_, hang.node_at, rfl⟩
      · exact ⟨_, hi, rfl⟩
    have hix : i ≠ s.counter := (inv.fresh hc₀).ne
    obtain ⟨alli, halli, hhashi⟩ := h hc₀
    rw [inv.word_addLeaf hang hc₀, hlen]
    exact ⟨alli, halli, (hold' i hix).trans hhashi⟩

theorem hashAt_deleteLeaf {x p : Nat} {xn pn : TreeNode}
    (hx : s.nodes x = some xn) (hp : s.nodes p = some pn) (hpar : xn.parent = some p)
    (hdel : s.deleteLeaf cfg x = some s') :
    (∀ i, i ≠ x → s'.hashAt i = s.hashAt i) ∧ s'.kvEventQueue = s.kvEventQueue := by
  simp only [deleteLeaf, hx, hpar, hp, Option.bind_eq_bind, Option.bind_some] at hdel
  split at hdel
  · cases hdel
    simp only [hashAt, nodes_updateLeafStatus, events_updateLeafStatus]
    refine ⟨?_, rfl⟩
    intro i hi
    simp only [discardSessionLeaf, dropNode, setNode, update_of_ne hi]
    by_cases hip : i = p
    · subst hip
      simp [hp]
    · rw [update_of_ne hip]
  · cases hdel

theorem hashInv_deleteLeaf (inv : TreeInv cfg.pageSize s.view)
    (h : HashInv cfg s) {x p : Nat} {xn pn : TreeNode} (hx : s.nodes x = some xn)
    (hp : s.nodes p = some pn)
    (prune : TreeInv.Prune s.view x xn.toNodeCore p pn.toNodeCore)
    (hdel : s.deleteLeaf cfg x = some s')
    (hview : s'.view = s.view.removeLeaf cfg.pageSize x xn.toNodeCore p pn.toNodeCore) :
    HashInv cfg s' := by
  have hrest := (hashAt_deleteLeaf hx hp prune.parent_eq hdel).1
  intro i c hi
  rw [hview] at hi ⊢
  obtain ⟨hix, hcase⟩ := TreeInv.removeLeaf_cases hi
  obtain ⟨c₀, hc₀, hlen⟩ : ∃ c₀, s.view.core i = some c₀ ∧ c.key.len = c₀.key.len := by
    rcases hcase with ⟨rfl, rfl⟩ | ⟨_, hi⟩
    · exact ⟨_, prune.parent_at, rfl⟩
    · exact ⟨_, hi, rfl⟩
  rw [inv.word_removeLeaf prune hix hc₀, hrest i hix, hlen]
  exact h hc₀

/-- The event of a deleted node withdraws the hashes of its pages. -/
theorem recordRemoveEvent_of {ok : Bool} {xn : TreeNode} {hs : List String}
    (hon : cfg.enableKvCacheEvents = true) (hhash : xn.hashValue = some hs)
    (hlen : hs.length = xn.key.len / cfg.pageSize) (hdvd : cfg.pageSize ∣ xn.key.len)
    (hev : s.recordRemoveEvent cfg xn = (s', ok)) :
    s'.view = s.view ∧ (∀ i, s'.hashAt i = s.hashAt i) ∧ ∃ new,
      s'.kvEventQueue = s.kvEventQueue ++ new ∧
      ∀ m x, x ∈ replay m new ↔ x ∈ m ∧ x ∉ hs.map hashStrToInt64 := by
  have htake : hs.take (numPages cfg.pageSize xn.key.len) = hs := by
    rw [numPages_of_dvd cfg.pageSize_pos hdvd]
    exact take_of_length_le hlen.le
  simp only [recordRemoveEvent, hon, if_true, hhash, Option.or, htake] at hev
  split at hev
  · next hnil =>
    cases hev
    exact ⟨rfl, fun _ => rfl, [], by simp, by simp [replay, hnil]⟩
  · cases hev
    refine ⟨rfl, fun _ => rfl, _, rfl, ?_⟩
    intro m x
    simp [replay, applyEvent]

/-! ## Section 3: Operations -/

/-- The operations that change what is stored lead to `P`. -/
def LeadsTo (cfg : CacheConfig) (s : RadixCache) (P : RadixCache → Prop) : CacheOp → Prop
  | .insert _ key value _ _ => cfg.disable = false → ∀ t res,
    Inserted cfg s (alignedKey cfg key) (alignedValue cfg key value) t res → P t
  | .evict order numTokens => ∀ t res, s.evict cfg order numTokens = some (t, res) → P t
  | .releaseRadixSession iter sid => ∀ t freed,
    s.releaseRadixSession cfg iter sid = some (t, freed) → P t
  | .reset now => P (s.reset cfg now)
  | _ => True

/-- Rule for one operation: insertions, evictions, releases and resets, and the silent others. -/
theorem step_rule {P : RadixCache → Prop} {r r' : CacheRun} {op : CacheOp} (h : RunInv cfg r)
    (hhash : HashInv cfg r.cache) (hvalid : op.Valid cfg r) (hstep : r.step cfg op = some r')
    (hsilent : ∀ {t}, Silent cfg r.cache t → P t) (hlead : LeadsTo cfg r.cache P op) :
    P r'.cache := by
  obtain ⟨s, locks⟩ := r
  have htree : TreeInv cfg.pageSize s.view := h.tree
  have hsame : P s := hsilent (silent_refl hhash)
  -- only an insertion, an eviction and a session release announce anything
  cases op with
  | matchPrefix now key =>
    cases hdis : cfg.disable with
    | true =>
      simp [CacheRun.step, matchPrefix_disabled now s hdis] at hstep
      rw [← hstep]
      exact hsame
    | false =>
      obtain ⟨t, last, nl, heq, hre, _⟩ := matchPrefix_spec now htree hdis key
      simp [CacheRun.step, heq] at hstep
      rw [← hstep]
      exact hsilent (hre.silent htree hhash)
  | insert now key value priority chunked =>
    cases hdis : cfg.disable with
    | true =>
      simp [CacheRun.step, RadixCache.insert, hdis] at hstep
      rw [← hstep]
      exact hsame
    | false =>
      obtain ⟨t, res, heq, hins⟩ := insert_spec now priority chunked htree hdis hvalid
      simp [CacheRun.step, heq] at hstep
      rw [← hstep]
      exact hlead hdis t res hins
  | incLockRef node =>
    obtain ⟨nd, hnd⟩ := Option.isSome_iff_exists.mp hvalid
    cases hdis : cfg.disable with
    | true =>
      simp [CacheRun.step, RadixCache.incLockRef, hdis] at hstep
      rw [← hstep]
      exact hsame
    | false =>
      obtain ⟨t, delta, heq, _, rel⟩ := incLockRef_spec htree hdis (core_at hnd)
      simp [CacheRun.step, heq] at hstep
      rw [← hstep]
      exact hsilent (rel.silent hhash)
  | decLockRef node =>
    obtain ⟨nc, hnc⟩ := h.locks.live node hvalid
    cases hdis : cfg.disable with
    | true =>
      simp [CacheRun.step, RadixCache.decLockRef, hdis] at hstep
      rw [← hstep]
      exact hsame
    | false =>
      obtain ⟨t, delta, heq, _, rel⟩ := decLockRef_spec htree hdis hnc
        fun m hm nm hnm => h.locks.locked_of_mem htree hvalid hm hnm
      simp [CacheRun.step, heq] at hstep
      rw [← hstep]
      exact hsilent (rel.silent hhash)
  | evict order numTokens =>
    simp only [CacheRun.step, Option.bind_eq_bind, Option.bind_eq_some_iff,
      Option.some.injEq] at hstep
    obtain ⟨⟨t, res⟩, heq, rfl⟩ := hstep
    exact hlead t res heq
  | tagSessionLeaf now sid key node =>
    obtain ⟨s', t, heq, hre, hq, _⟩ := tagSessionLeaf_spec now htree sid key node
    simp [CacheRun.step, heq] at hstep
    rw [← hstep]
    exact hsilent ((hre.silent htree hhash).quiet hq)
  | releaseRadixSession iter sid =>
    simp only [CacheRun.step, Option.bind_eq_bind, Option.bind_eq_some_iff,
      Option.some.injEq] at hstep
    obtain ⟨⟨t, freed⟩, heq, rfl⟩ := hstep
    exact hlead t freed heq
  | reset now =>
    simp only [CacheRun.step, Option.some.injEq] at hstep
    rw [← hstep]
    exact hlead

end RadixCache

end Sglang.MemCache
