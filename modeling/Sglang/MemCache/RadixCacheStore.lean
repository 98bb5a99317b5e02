import Sglang.Lib.PageStore
import Sglang.MemCache.RadixCacheInvariant

/-!
# The Radix Cache is a Longest-Prefix Store

The tree of a cache, read as a `PageStore` over the namespaced letters, and the theorem that
runs of the cache refine the abstract store: insertions add the missing pages with the slots
they came with, deletions drop the pages of the deleted nodes, everything else leaves the store
alone, and `match_prefix` answers with the longest stored prefix.
-/

namespace Sglang.MemCache

open List Function
open Lib

/-! ## Section 1: Associations of a tree -/

/-- The pages stored in a tree: page-aligned words with the slots of their last page. -/
def TreeView.assoc (ps : Nat) (v : TreeView) : PageStore Letter Nat :=
  {x | ∃ i n, v.core i = some n ∧ IsPagePrefix ps x.1 (v.word i) ∧
    x.2 = pageAt ps (v.slots i) x.1}

/-- The pages that lie in the segment of one node. -/
def TreeView.pagesOf (ps : Nat) (v : TreeView) (i : Nat) : Set (List Letter) :=
  {p | ∃ n q, v.core i = some n ∧ n.parent = some q ∧ IsPagePrefix ps p (v.word i) ∧
    (v.word q).length < p.length}

namespace TreeInv

variable {ps : Nat} {v : TreeView}

theorem pageAt_unique (inv : TreeInv ps v) {i j : Nat} {ni nj : NodeCore}
    (hi : v.core i = some ni) (hj : v.core j = some nj) {p : List Letter}
    (hpi : IsPagePrefix ps p (v.word i)) (hpj : IsPagePrefix ps p (v.word j)) :
    pageAt ps (v.slots i) p = pageAt ps (v.slots j) p := by
  unfold pageAt
  rw [inv.trie.spells_agree inv.spells_slots (fun n c hn => by
    obtain ⟨m, hm, _⟩ := skeleton_some hn
    exact inv.slots_length hm) (trie_at hi) (trie_at hj) hpi.isPrefix hpj.isPrefix hpi.dvd]

theorem mem_keys_assoc_iff {p : List Letter} :
    p ∈ (v.assoc ps).keys ↔ ∃ i n, v.core i = some n ∧ IsPagePrefix ps p (v.word i) := by
  constructor
  · rintro ⟨pg, i, n, hi, hp, _⟩
    exact ⟨i, n, hi, hp⟩
  · rintro ⟨i, n, hi, hp⟩
    exact ⟨pageAt ps (v.slots i) p, i, n, hi, hp, rfl⟩

theorem assoc_addLeaf (inv : TreeInv ps v) {node : Nat} {nd : NodeCore} {key : RadixKey}
    {vals : List Nat}
    (hang : Hang ps v node nd key (vals.drop (v.word node).length)) :
    (v.addLeaf ps node nd key (vals.drop (v.word node).length)).assoc ps =
      (v.assoc ps).insert ps (v.word node ++ key.letters) vals := by
  set value := vals.drop (v.word node).length with hvalue
  have hstop := RadixCache.Stops.of_rest inv hang.node_at hang.dvd (.inr hang.free)
  -- pages longer than the word of `node` are new, shorter ones are those of `node`
  have hnew : ∀ {p}, IsPagePrefix ps p (v.word node ++ key.letters) → p ∈ (v.assoc ps).keys →
      p.length ≤ (v.word node).length := by
    intro p hp hkeys
    obtain ⟨i, n, hi, hpi⟩ := mem_keys_assoc_iff.mp hkeys
    exact hstop.maximal inv hi hp.isPrefix hpi.isPrefix hp.dvd
  have hold : ∀ {p}, IsPagePrefix ps p (v.word node ++ key.letters) →
      p.length ≤ (v.word node).length → IsPagePrefix ps p (v.word node) := fun hp hle =>
    ⟨hp.ne_nil, hp.dvd,
      prefix_of_prefix_length_le hp.isPrefix (prefix_append _ _) hle⟩
  have hlen := inv.slots_length hang.node_at
  have hpage : ∀ {p}, IsPagePrefix ps p (v.word node ++ key.letters) →
      (v.word node).length < p.length →
      pageAt ps (v.slots node ++ value) p = pageAt ps vals p := by
    intro p hp hlt
    refine pageAt_append_drop hlen ?_
    exact inv.trie.add_page_le (trie_at hang.node_at) hp.dvd hlt
  ext ⟨p, pg⟩
  constructor
  · rintro ⟨i, n, hi, hp, hpg⟩
    rcases addLeaf_cases hi with ⟨rfl, _⟩ | h
    · rw [inv.word_addLeaf_new hang] at hp
      rw [inv.slots_addLeaf_new hang] at hpg
      by_cases hle : p.length ≤ (v.word node).length
      · refine .inl ⟨node, nd, hang.node_at, hold hp hle, ?_⟩
        rw [hpg]
        exact (pageAt_of_isPrefix (prefix_append _ _) (by rw [hlen]; exact hle)).symm
      · refine .inr ⟨hp, fun hkeys => hle (hnew hp hkeys), ?_⟩
        rw [hpg]
        exact hpage hp (not_le.mp hle)
    · obtain ⟨n₀, hn₀⟩ : ∃ n₀, v.core i = some n₀ := by
        rcases h with ⟨rfl, _⟩ | ⟨_, _, hi⟩
        · exact ⟨nd, hang.node_at⟩
        · exact ⟨n, hi⟩
      rw [inv.word_addLeaf hang hn₀] at hp
      rw [inv.slots_addLeaf hang hn₀] at hpg
      exact .inl ⟨i, n₀, hn₀, hp, hpg⟩
  · rintro (⟨i, n, hi, hp, hpg⟩ | ⟨hp, hnot, hpg⟩)
    · obtain ⟨n', hn', _⟩ := inv.addLeaf_live hang hi
      refine ⟨i, n', hn', ?_, ?_⟩
      · rw [inv.word_addLeaf hang hi]
        exact hp
      · rw [inv.slots_addLeaf hang hi]
        exact hpg
    · have hlt : (v.word node).length < p.length := by
        by_contra hle
        exact hnot (mem_keys_assoc_iff.mpr ⟨node, nd, hang.node_at, hold hp (not_lt.mp hle)⟩)
      refine ⟨v.counter, _, inv.addLeaf_new hang, ?_, ?_⟩
      · rw [inv.word_addLeaf_new hang]
        exact hp
      · rw [inv.slots_addLeaf_new hang]
        exact hpg.trans (hpage hp hlt).symm

theorem assoc_removeLeaf (inv : TreeInv ps v) {x p : Nat} {xn pn : NodeCore}
    (prune : Prune v x xn p pn) :
    (v.removeLeaf ps x xn p pn).assoc ps = (v.assoc ps).remove (v.pagesOf ps x) := by
  have hleaf := prune.no_child
  ext ⟨w, pg⟩
  constructor
  · rintro ⟨i, n, hi, hp, hpg⟩
    obtain ⟨hix, n₀, hn₀, _⟩ := removeLeaf_old prune hi
    rw [inv.word_removeLeaf prune hix hn₀] at hp
    rw [inv.slots_removeLeaf prune hix hn₀] at hpg
    refine ⟨⟨i, n₀, hn₀, hp, hpg⟩, ?_⟩
    -- a page of `x` is only on the path of `x`
    rintro ⟨xn', q, hxn', hq, hpx, hlt⟩
    have hmem := inv.trie.host_mem_path (inv.path_up hn₀) hp.isPrefix hp.dvd (trie_at hxn') hq
      hpx.isPrefix hlt
    exact inv.prune_not_mem_path prune hix hn₀ hmem
  · rintro ⟨⟨i, n, hi, hp, hpg⟩, hnot⟩
    by_cases hix : i = x
    · subst hix
      -- pages of `i` outside its own segment are pages of its parent
      rw [prune.node_at] at hi
      cases hi
      have hle : w.length ≤ (v.word p).length := by
        by_contra hlt
        exact hnot ⟨xn, p, prune.node_at, prune.parent_eq, hp, not_le.mp hlt⟩
      have hwp : IsPagePrefix ps w (v.word p) := by
        refine ⟨hp.ne_nil, hp.dvd, prefix_of_prefix_length_le hp.isPrefix ?_ hle⟩
        rw [inv.word_child prune.node_at prune.parent_eq]
        exact prefix_append _ _
      obtain ⟨pn', hpn', _⟩ := removeLeaf_live prune (inv.prune_ne prune)
        prune.parent_at
      refine ⟨p, pn', hpn', ?_, ?_⟩
      · rw [inv.word_removeLeaf prune (inv.prune_ne prune) prune.parent_at]
        exact hwp
      · rw [inv.slots_removeLeaf prune (inv.prune_ne prune) prune.parent_at]
        exact hpg.trans (inv.pageAt_unique prune.node_at prune.parent_at hp hwp)
    · obtain ⟨n', hn', _⟩ := removeLeaf_live prune hix hi
      refine ⟨i, n', hn', ?_, ?_⟩
      · rw [inv.word_removeLeaf prune hix hi]
        exact hp
      · rw [inv.slots_removeLeaf prune hix hi]
        exact hpg

end TreeInv

namespace RadixCache

variable {cfg : CacheConfig}

def assoc (cfg : CacheConfig) (s : RadixCache) : PageStore Letter Nat := s.view.assoc cfg.pageSize

theorem Reshape.assoc_eq {s t : RadixCache} (hre : Reshape cfg s t)
    (inv : TreeInv cfg.pageSize s.view) : t.assoc cfg = s.assoc cfg := by
  have inv' := hre.inv inv
  ext ⟨p, pg⟩
  constructor
  · rintro ⟨i, n, hi, hp, hpg⟩
    obtain ⟨j, n₀, org⟩ := hre.origin inv hi
    refine ⟨j, n₀, org.source, hp.trans org.word, ?_⟩
    rw [hpg]
    refine pageAt_of_isPrefix org.slots ?_
    rw [inv'.slots_length hi]
    exact hp.isPrefix.length_le
  · rintro ⟨i, n, hi, hp, hpg⟩
    obtain ⟨n', hn', _, hword, hslots⟩ := hre.keeps inv hi
    exact ⟨i, n', hn', by rw [hword]; exact hp, by rw [hslots]; exact hpg⟩

theorem Relocked.assoc_eq {s t : RadixCache} {d : Nat → Int} (rel : Relocked s t d) :
    t.assoc cfg = s.assoc cfg := by
  unfold assoc TreeView.assoc
  rw [rel.word_eq, rel.slots_eq]
  ext x
  constructor
  · rintro ⟨i, n, hi, hrest⟩
    rw [rel.core] at hi
    obtain ⟨n₀, hn₀, _⟩ := Option.map_eq_some_iff.mp hi
    exact ⟨i, n₀, hn₀, hrest⟩
  · rintro ⟨i, n, hi, hrest⟩
    exact ⟨i, _, by rw [rel.core, hi]; rfl, hrest⟩

theorem Inserted.assoc_eq {s t : RadixCache} {key : RadixKey} {value : List Nat}
    {res : Option InsertResult} (hins : Inserted cfg s key value t res)
    (inv : TreeInv cfg.pageSize s.view) :
    t.assoc cfg = (s.assoc cfg).insert cfg.pageSize key.letters value := by
  cases hins with
  | @found _ node nd hre hnode hword =>
    rw [← hre.assoc_eq inv]
    refine (PageStore.insert_eq_self fun p hp => ?_).symm
    exact TreeInv.mem_keys_assoc_iff.mpr ⟨node, _, core_at hnode, by rw [hword]; exact hp⟩
  | @added s₁ s₂ _ now priority chunked ok node d nd rest hre hnode hang hword hlen hadd hview
      hev =>
    have hd : d = (s₁.view.word node).length := by
      have := congrArg List.length hword
      simp only [length_append, RadixKey.letters_length] at this
      omega
    subst hd
    rw [← hre.assoc_eq inv, ← hword]
    unfold assoc
    rw [view_recordStoreEvent hev, hview]
    exact (hre.inv inv).assoc_addLeaf hang

theorem Stops.answers {ps : Nat} {v : TreeView} (inv : TreeInv ps v) {w : List Letter}
    {node : Nat} {nd : NodeCore} (st : Stops ps v w node nd) :
    PageStore.Answers ps (v.assoc ps) w (v.slots node) := by
  have hlen := inv.slots_length st.node_at
  refine ⟨?_, ?_, ?_, ?_⟩
  · rw [hlen]
    exact inv.trie.word_dvd (TreeInv.trie_at st.node_at)
  · rw [hlen]
    exact st.prefix_of.length_le
  · intro m hpos hdvd hm
    have hm' : m ≤ (v.word node).length := by rwa [← hlen]
    have htake : w.take m = (v.word node).take m := by
      conv_rhs => rw [prefix_iff_eq_take.mp st.prefix_of]
      rw [take_take, min_eq_left hm']
    have hlenm : (w.take m).length = m := by
      rw [htake, length_take, min_eq_left hm']
    refine ⟨node, nd, st.node_at, ⟨?_, ?_, ?_⟩, ?_⟩
    · exact ne_nil_of_length_pos (by rw [hlenm]; exact hpos)
    · rw [hlenm]
      exact hdvd
    · rw [htake]
      exact take_prefix _ _
    · unfold pageAt
      rw [hlenm]
  · intro p hp hkeys
    obtain ⟨i, n, hi, hpi⟩ := TreeInv.mem_keys_assoc_iff.mp hkeys
    rw [hlen]
    exact st.maximal inv hi hp.isPrefix hpi.isPrefix hp.dvd

/-! ## Section 2: Deletions -/

/-- The pages in the segments of the nodes that `s` has and `s'` has not. -/
def evictedPages (cfg : CacheConfig) (s s' : RadixCache) : Set (List Letter) :=
  {p | ∃ i, s'.view.core i = none ∧ p ∈ s.view.pagesOf cfg.pageSize i}

/-- `t` is what deletions have left of `s`. -/
structure Shrunk (cfg : CacheConfig) (s t : RadixCache) : Prop where
  keeps : ∀ {i n'}, t.view.core i = some n' →
    ∃ n, s.view.core i = some n ∧ n.parent = n'.parent ∧ t.view.word i = s.view.word i
  assoc : t.assoc cfg = (s.assoc cfg).remove (evictedPages cfg s t)

theorem Shrunk.refl (s : RadixCache) : Shrunk cfg s s where
  keeps := fun hi => ⟨_, hi, rfl, rfl⟩
  assoc := by
    ext x
    refine ⟨fun hx => ⟨hx, ?_⟩, fun hx => hx.1⟩
    rintro ⟨i, hnone, n, q, hn, _⟩
    rw [hnone] at hn
    cases hn

theorem Shrunk.quiet {s t u : RadixCache} (h : Shrunk cfg s t) (hq : Quiet t u) :
    Shrunk cfg s u := by
  obtain ⟨hkeeps, hassoc⟩ := h
  unfold RadixCache.assoc evictedPages at hassoc
  refine ⟨?_, ?_⟩
  · rw [hq.view]
    exact hkeeps
  · unfold RadixCache.assoc evictedPages
    rw [hq.view]
    exact hassoc

theorem Shrunk.delete {s t u : RadixCache} (h : Shrunk cfg s t)
    (inv : TreeInv cfg.pageSize t.view) {x p : Nat} {xn pn : NodeCore}
    (prune : TreeInv.Prune t.view x xn p pn)
    (hview : u.view = t.view.removeLeaf cfg.pageSize x xn p pn) : Shrunk cfg s u := by
  -- the pages of a node that is left are those it had at the start
  have hpages : t.view.pagesOf cfg.pageSize x = s.view.pagesOf cfg.pageSize x := by
    obtain ⟨n, hn, hpar, hword⟩ := h.keeps prune.node_at
    obtain ⟨_, _, _, hwordp⟩ := h.keeps prune.parent_at
    ext w
    constructor
    · rintro ⟨n', q, hn', hq, hp, hlt⟩
      rw [prune.node_at] at hn'
      cases hn'
      rw [prune.parent_eq] at hq
      cases hq
      rw [hword] at hp
      rw [hwordp] at hlt
      exact ⟨n, p, hn, hpar.trans prune.parent_eq, hp, hlt⟩
    · rintro ⟨n', q, hn', hq, hp, hlt⟩
      rw [hn] at hn'
      cases hn'
      rw [hpar.trans prune.parent_eq] at hq
      cases hq
      rw [← hword] at hp
      rw [← hwordp] at hlt
      exact ⟨xn, p, prune.node_at, prune.parent_eq, hp, hlt⟩
  refine ⟨?_, ?_⟩
  · intro i n' hi
    rw [hview] at hi ⊢
    obtain ⟨hix, n₀, hn₀, _⟩ := TreeInv.removeLeaf_old prune hi
    obtain ⟨n, hn, hpar, hword⟩ := h.keeps hn₀
    refine ⟨n, hn, ?_, (inv.word_removeLeaf prune hix hn₀).trans hword⟩
    rcases (TreeInv.removeLeaf_cases hi).2 with ⟨rfl, rfl⟩ | ⟨_, hi⟩
    · rw [prune.parent_at] at hn₀
      cases hn₀
      exact hpar
    · rw [hi] at hn₀
      cases hn₀
      exact hpar
  · have hassoc : u.assoc cfg = (t.assoc cfg).remove (t.view.pagesOf cfg.pageSize x) := by
      unfold RadixCache.assoc
      rw [hview]
      exact inv.assoc_removeLeaf prune
    rw [hassoc, h.assoc, hpages]
    -- what is gone is what was gone before, and the pages of `x`
    ext y
    constructor
    · rintro ⟨⟨hy, hnot⟩, hx⟩
      refine ⟨hy, ?_⟩
      rintro ⟨i, hnone, hi⟩
      by_cases hix : i = x
      · subst hix
        exact hx hi
      · cases ht : t.view.core i with
        | none => exact hnot ⟨i, ht, hi⟩
        | some n =>
          obtain ⟨n', hn', _⟩ := TreeInv.removeLeaf_live prune hix ht
          rw [hview, hn'] at hnone
          cases hnone
    · rintro ⟨hy, hnot⟩
      refine ⟨⟨hy, ?_⟩, ?_⟩
      · rintro ⟨i, hnone, hi⟩
        refine hnot ⟨i, ?_, hi⟩
        cases hu : u.view.core i with
        | none => rfl
        | some n =>
          rw [hview] at hu
          obtain ⟨_, n₀, hn₀, _⟩ := TreeInv.removeLeaf_old prune hu
          rw [hnone] at hn₀
          cases hn₀
      · intro hx
        refine hnot ⟨x, ?_, hx⟩
        rw [hview, TreeInv.removeLeaf_core, update_self]

/-! ## Section 3: Runs refine the abstract store -/

/-- What one operation does to the abstract store: `insert` adds the missing pages of the key, a
deletion drops the pages of the deleted nodes, `reset` forgets everything. -/
def CacheOp.storeStep (cfg : CacheConfig) (r r' : CacheRun) (A : PageStore Letter Nat) :
    CacheOp → PageStore Letter Nat
  | .insert _ key value _ _ =>
    if cfg.disable then A
    else A.insert cfg.pageSize (key.maybeToBigramView cfg.isEagle).letters value
  | .evict _ _ => A.remove (evictedPages cfg r.cache r'.cache)
  | .releaseRadixSession _ _ => A.remove (evictedPages cfg r.cache r'.cache)
  | .reset _ => ∅
  | _ => A

def CacheRun.store (cfg : CacheConfig) :
    CacheRun → PageStore Letter Nat → List CacheOp → PageStore Letter Nat
  | _, A, [] => A
  | r, A, op :: ops =>
    match r.step cfg op with
    | none => A
    | some r' => r'.store cfg (op.storeStep cfg r r' A) ops

theorem insert_aligned (key : RadixKey) (value : List Nat) (A : PageStore Letter Nat) :
    A.insert cfg.pageSize (alignedKey cfg key).letters (alignedValue cfg key value) =
      A.insert cfg.pageSize (key.maybeToBigramView cfg.isEagle).letters value := by
  have hiff : ∀ p, IsPagePrefix cfg.pageSize p (alignedKey cfg key).letters ↔
      IsPagePrefix cfg.pageSize p (key.maybeToBigramView cfg.isEagle).letters := by
    intro p
    rw [alignedKey, RadixKey.letters_pageAligned]
    refine ⟨fun h => h.trans (List.take_prefix _ _), fun h => ⟨h.ne_nil, h.dvd, ?_⟩⟩
    rw [prefix_take_iff]
    refine ⟨h.isPrefix, (le_pageFloor_iff h.dvd).mpr ?_⟩
    simpa using h.isPrefix.length_le
  ext ⟨p, pg⟩
  unfold PageStore.insert
  simp only [Set.mem_union, Set.mem_ofPred_eq]
  refine or_congr Iff.rfl ?_
  rw [hiff]
  refine and_congr_right fun hp => ?_
  have hlen : p.length ≤ (alignedKey cfg key).len := by
    simpa using ((hiff p).mpr hp).isPrefix.length_le
  have hpage : pageAt cfg.pageSize (alignedValue cfg key value) p =
      pageAt cfg.pageSize value p := by
    unfold pageAt
    rw [alignedValue_eq, take_take, min_eq_left hlen]
  rw [hpage]

theorem assoc_root_only {s : RadixCache} (inv : TreeInv cfg.pageSize s.view)
    (h : ∀ {i c}, s.view.core i = some c → i = s.view.rootNode) : s.assoc cfg = ∅ := by
  ext x
  refine ⟨?_, fun hx => hx.elim⟩
  rintro ⟨i, n, hi, hp, _⟩
  rw [h hi, inv.trie.word_root] at hp
  exact hp.ne_nil (prefix_nil.mp hp.isPrefix)

/-- One operation acts on the stored pages as on the abstract store. -/
theorem RunInv.storeStep {r r' : CacheRun} (h : RunInv cfg r) {op : CacheOp}
    (hvalid : op.Valid cfg r) (hstep : r.step cfg op = some r') :
    r'.cache.assoc cfg = op.storeStep cfg r r' (r.cache.assoc cfg) := by
  obtain ⟨s, locks⟩ := r
  have htree : TreeInv cfg.pageSize s.view := h.tree
  -- lookups and locks keep the association, an insertion adds to it, the rest shrinks it
  cases op with
  | matchPrefix now key =>
    cases hdis : cfg.disable with
    | true =>
      simp [CacheRun.step, matchPrefix_disabled now s hdis] at hstep
      simp [← hstep, CacheOp.storeStep]
    | false =>
      obtain ⟨t, last, nl, heq, hre, _⟩ := matchPrefix_spec now htree hdis key
      simp [CacheRun.step, heq] at hstep
      rw [← hstep]
      exact hre.assoc_eq htree
  | insert now key value priority chunked =>
    cases hdis : cfg.disable with
    | true =>
      simp [CacheRun.step, insert, hdis] at hstep
      simp [← hstep, CacheOp.storeStep, hdis]
    | false =>
      obtain ⟨t, res, heq, hins⟩ := insert_spec now priority chunked htree hdis hvalid
      simp [CacheRun.step, heq] at hstep
      rw [← hstep]
      simp only [CacheOp.storeStep, hdis, Bool.false_eq_true, if_false]
      rw [← insert_aligned]
      exact hins.assoc_eq htree
  | incLockRef node =>
    obtain ⟨nd, hnd⟩ := Option.isSome_iff_exists.mp hvalid
    cases hdis : cfg.disable with
    | true =>
      simp [CacheRun.step, incLockRef, hdis] at hstep
      simp [← hstep, CacheOp.storeStep]
    | false =>
      obtain ⟨t, delta, heq, _, rel⟩ := incLockRef_spec htree hdis (core_at hnd)
      simp [CacheRun.step, heq] at hstep
      rw [← hstep]
      exact rel.assoc_eq
  | decLockRef node =>
    obtain ⟨nc, hnc⟩ := h.locks.live node hvalid
    cases hdis : cfg.disable with
    | true =>
      simp [CacheRun.step, decLockRef, hdis] at hstep
      simp [← hstep, CacheOp.storeStep]
    | false =>
      obtain ⟨t, delta, heq, _, rel⟩ := decLockRef_spec htree hdis hnc
        fun m hm nm hnm => h.locks.locked_of_mem htree hvalid hm hnm
      simp [CacheRun.step, heq] at hstep
      rw [← hstep]
      exact rel.assoc_eq
  | evict order numTokens =>
    obtain ⟨t, res, acc, heq, hshrunk, _, _⟩ := evict_rule cfg order numTokens
      (fun t _ => Shrunk cfg s t)
      (fun hP inv _ _ prune _ hview hev =>
        hP.delete inv prune ((view_recordRemoveEvent hev).trans hview)) (.refl s) htree
    simp [CacheRun.step, heq] at hstep
    rw [← hstep]
    exact hshrunk.assoc
  | tagSessionLeaf now sid key node =>
    obtain ⟨s', t, heq, hre, hq, _⟩ := tagSessionLeaf_spec now htree sid key node
    simp [CacheRun.step, heq] at hstep
    rw [← hstep]
    have hsame : s'.assoc cfg = t.assoc cfg := by
      unfold RadixCache.assoc
      rw [hq.view]
    exact hsame.trans (hre.assoc_eq htree)
  | releaseRadixSession iter sid =>
    obtain ⟨t, freed, heq, hshrunk, _⟩ := releaseRadixSession_rule cfg sid iter
      (fun t _ => Shrunk cfg s t) (fun hq hP => hP.quiet hq)
      (fun hP inv _ _ prune _ hview _ => hP.delete inv prune hview) (.refl s) htree
    simp [CacheRun.step, heq] at hstep
    rw [← hstep]
    exact hshrunk.assoc
  | reset now =>
    simp only [CacheRun.step, Option.some.injEq] at hstep
    rw [← hstep]
    refine assoc_root_only (treeInv_reset cfg now s) ?_
    intro i c hi
    by_contra hne
    have hne : i ≠ s.counter := hne
    simp [reset, view, update_of_ne hne] at hi

theorem RunInv.store_eq {r r' : CacheRun} (h : RunInv cfg r) {ops : List CacheOp}
    (hvalid : r.ValidOps cfg ops) (hexec : r.exec cfg ops = some r') :
    r'.cache.assoc cfg = r.store cfg (r.cache.assoc cfg) ops := by
  induction ops generalizing r with
  | nil =>
    simp only [CacheRun.exec, Option.some.injEq] at hexec
    rw [← hexec]
    rfl
  | cons op ops ih =>
    obtain ⟨r₁, heq, h₁⟩ := h.step hvalid.1
    have hrest := hvalid.2
    simp only [CacheRun.exec, heq] at hexec hrest
    rw [ih h₁ hrest hexec, h.storeStep hvalid.1 heq]
    simp only [CacheRun.store, heq]

/-! ## Section 4: Namespaces -/

/-- What the allocator promises: a page that an insertion is about to store holds no slot that is
stored already. -/
def CacheOp.Fresh (cfg : CacheConfig) (A : PageStore Letter Nat) : CacheOp → Prop
  | .insert _ key value _ _ =>
    ∀ p, IsPagePrefix cfg.pageSize p (key.maybeToBigramView cfg.isEagle).letters → p ∉ A.keys →
      ∀ q pg, (q, pg) ∈ A → (pageAt cfg.pageSize value p).Disjoint pg
  | _ => True

def CacheRun.FreshOps (cfg : CacheConfig) :
    CacheRun → PageStore Letter Nat → List CacheOp → Prop
  | _, _, [] => True
  | r, A, op :: ops =>
    op.Fresh cfg A ∧
      match r.step cfg op with
      | none => True
      | some r' => r'.FreshOps cfg (op.storeStep cfg r r' A) ops

/-- Pages of different namespaces hold different slots. -/
def Separated (A : PageStore Letter Nat) : Prop :=
  ∀ p pg p' pg', (p, pg) ∈ A → (p', pg') ∈ A → (∃ l ∈ p, ∃ l' ∈ p', l.1 ≠ l'.1) → pg.Disjoint pg'

theorem letters_extraKey {key : RadixKey} {l : Letter} (h : l ∈ key.letters) :
    l.1 = key.extraKey := by
  obtain ⟨u, _, rfl⟩ := mem_map.mp h
  rfl

theorem Separated.storeStep {A : PageStore Letter Nat} (hsep : Separated A) {op : CacheOp}
    (hfresh : op.Fresh cfg A) (r r' : CacheRun) : Separated (op.storeStep cfg r r' A) := by
  have hremove : ∀ gone, Separated (A.remove gone) := fun gone p pg p' pg' hp hp' =>
    hsep p pg p' pg' hp.1 hp'.1
  cases op with
  | insert now key value priority chunked =>
    simp only [CacheOp.storeStep]
    split
    · exact hsep
    · have hns : ∀ {p}, IsPagePrefix cfg.pageSize p (key.maybeToBigramView cfg.isEagle).letters →
          ∀ l ∈ p, l.1 = key.extraKey := by
        intro p hp l hl
        rw [letters_extraKey (hp.isPrefix.subset hl), RadixKey.maybeToBigramView_extraKey]
      rintro p pg p' pg' (hp | ⟨hp, hnot, hpg⟩) (hp' | ⟨hp', hnot', hpg'⟩) hdiff
      · exact hsep p pg p' pg' hp hp' hdiff
      · rw [show pg' = pageAt cfg.pageSize value p' from hpg']
        exact (hfresh p' hp' hnot' p pg hp).symm
      · rw [show pg = pageAt cfg.pageSize value p from hpg]
        exact hfresh p hp hnot p' pg' hp'
      · obtain ⟨l, hl, l', hl', hne⟩ := hdiff
        exact absurd ((hns hp l hl).trans (hns hp' l' hl').symm) hne
  | evict _ _ => exact hremove _
  | releaseRadixSession _ _ => exact hremove _
  | reset _ =>
    intro p pg p' pg' hp
    exact hp.elim
  | matchPrefix _ _ => exact hsep
  | incLockRef _ => exact hsep
  | decLockRef _ => exact hsep
  | tagSessionLeaf _ _ _ _ => exact hsep

theorem Separated.store {A : PageStore Letter Nat} (hsep : Separated A) {r : CacheRun}
    {ops : List CacheOp} (hfresh : r.FreshOps cfg A ops) : Separated (r.store cfg A ops) := by
  induction ops generalizing r A with
  | nil => exact hsep
  | cons op ops ih =>
    have hrest := hfresh.2
    unfold CacheRun.store
    cases hstep : r.step cfg op with
    | none => exact hsep
    | some r' =>
      rw [hstep] at hrest
      exact ih (hsep.storeStep hfresh.1 r r') hrest

theorem Separated.disjoint {A : PageStore Letter Nat} (hsep : Separated A) {ps : Nat}
    (hps : 0 < ps) {key key' : RadixKey} {vals vals' : List Nat}
    (h : A.Answers ps key.letters vals) (h' : A.Answers ps key'.letters vals')
    (hne : key.extraKey ≠ key'.extraKey) : vals.Disjoint vals' := by
  intro x hx hx'
  obtain ⟨p, pg, hpg, hp, hxp⟩ := h.mem_page hps hx
  obtain ⟨p', pg', hpg', hp', hxp'⟩ := h'.mem_page hps hx'
  obtain ⟨l, hl⟩ := exists_mem_of_ne_nil _ hp.ne_nil
  obtain ⟨l', hl'⟩ := exists_mem_of_ne_nil _ hp'.ne_nil
  refine hsep p pg p' pg' hpg hpg' ⟨l, hl, l', hl', ?_⟩ hxp hxp'
  rw [letters_extraKey (hp.isPrefix.subset hl), letters_extraKey (hp'.isPrefix.subset hl')]
  exact hne

/-! ## Section 5: The store theorem -/

theorem RunInv.matchPrefix_answers {r : CacheRun} (h : RunInv cfg r) (now : Int)
    (key : RadixKey) :
    ∃ s' res, r.cache.matchPrefix cfg now key = some (s', res) ∧
      (r.cache.assoc cfg).Answers cfg.pageSize (key.maybeToBigramView cfg.isEagle).letters
        res.deviceIndices ∧
      s'.assoc cfg = r.cache.assoc cfg := by
  cases hdis : cfg.disable with
  | true =>
    refine ⟨r.cache, _, matchPrefix_disabled now _ hdis key, ?_, rfl⟩
    rw [assoc_root_only h.tree (h.locks.disabled hdis)]
    refine ⟨by simp, by simp, ?_, ?_⟩
    · intro m hpos _ hm
      simp at hm
      omega
    · rintro p _ ⟨_, hp⟩
      exact hp.elim
  | false =>
    obtain ⟨s', last, nl, heq, hre, hstop⟩ := matchPrefix_spec now h.tree hdis key
    have hassoc := hre.assoc_eq h.tree
    refine ⟨s', _, heq, ?_, hassoc⟩
    rw [← hassoc]
    refine PageStore.Answers.of_aligned ?_
    rw [RadixKey.letters_length, ← RadixKey.letters_pageAligned]
    exact hstop.answers (hre.inv h.tree)

/-- After any run, `match_prefix` returns the slots of the longest page-aligned prefix stored by
the insertions of the run and not deleted since, each page with the slots of the insertion that
created it; it does not change what is stored; a stored page has one page of slots; and while
insertions bring fresh slots, keys with different `extra_key` never share one. -/
theorem longest_prefix_store (cfg : CacheConfig) (now : Int) (ops : List CacheOp)
    (hvalid : (CacheRun.start cfg now).ValidOps cfg ops) :
    ∃ r A, (CacheRun.start cfg now).exec cfg ops = some r ∧
      A = (CacheRun.start cfg now).store cfg ∅ ops ∧ r.cache.assoc cfg = A ∧
      (∀ p pg pg', (p, pg) ∈ A → (p, pg') ∈ A → pg = pg') ∧
      (∀ now key, ∃ s' res, r.cache.matchPrefix cfg now key = some (s', res) ∧
        A.Answers cfg.pageSize (key.maybeToBigramView cfg.isEagle).letters res.deviceIndices ∧
        s'.assoc cfg = A) ∧
      ((CacheRun.start cfg now).FreshOps cfg ∅ ops →
        ∀ t t' key key' s₁ s₂ res₁ res₂, r.cache.matchPrefix cfg t key = some (s₁, res₁) →
          r.cache.matchPrefix cfg t' key' = some (s₂, res₂) → key.extraKey ≠ key'.extraKey →
          res₁.deviceIndices.Disjoint res₂.deviceIndices) := by
  have h₀ : RunInv cfg (CacheRun.start cfg now) := runInv_reset cfg now _
  obtain ⟨r, hexec, h⟩ := h₀.exec hvalid
  have hempty : (CacheRun.start cfg now).cache.assoc cfg = ∅ := by
    refine assoc_root_only h₀.tree fun {i c} hi => ?_
    by_contra hne
    have hne : i ≠ 0 := hne
    simp [CacheRun.start, init, reset, view, update_of_ne hne] at hi
  have hassoc := h₀.store_eq hvalid hexec
  rw [hempty] at hassoc
  refine ⟨r, _, hexec, rfl, hassoc, ?_, ?_, ?_⟩
  · rw [← hassoc]
    rintro p pg pg' ⟨i, n, hi, hp, hpg⟩ ⟨j, n', hj, hp', hpg'⟩
    exact hpg.trans ((h.tree.pageAt_unique hi hj hp hp').trans hpg'.symm)
  · rw [← hassoc]
    exact fun t key => h.matchPrefix_answers t key
  · intro hfresh t t' key key' s₁ s₂ res₁ res₂ heq heq' hne
    have hsep : Separated (r.cache.assoc cfg) := by
      rw [hassoc]
      refine Separated.store ?_ hfresh
      intro p pg p' pg' hp
      exact hp.elim
    obtain ⟨_, _, h₁, hans, _⟩ := h.matchPrefix_answers t key
    obtain ⟨_, _, h₂, hans', _⟩ := h.matchPrefix_answers t' key'
    rw [heq] at h₁
    cases h₁
    rw [heq'] at h₂
    cases h₂
    exact hsep.disjoint cfg.pageSize_pos hans hans' (by simpa using hne)

/-- Two namespaces that store the same tokens, one of them under a longer key. -/
def namespaceOps : List CacheOp :=
  [.insert 1 { tokenIds := [1, 2, 3, 4], extraKey := some "lora" } [2, 3, 4, 5] 0 false,
    .insert 2 { tokenIds := [1, 2] } [6, 7] 0 false,
    .matchPrefix 3 { tokenIds := [1, 2, 3], extraKey := some "lora" },
    .evict (EvictionStrategy.order .lru) 1]

theorem freshOps_namespaces :
    (CacheRun.start sampleConfig 0).FreshOps sampleConfig ∅ namespaceOps := by
  have hsub : ∀ {vals : List Nat} {p : List Letter}, pageAt 2 vals p ⊆ vals := fun hx =>
    mem_of_mem_take (mem_of_mem_drop hx)
  refine ⟨fun _ _ _ _ _ h => h.elim, ?_⟩
  split
  · trivial
  · refine ⟨fun p _ _ q pg hpg => ?_, ?_⟩
    · rcases hpg with hpg | ⟨_, _, hpg⟩
      · exact hpg.elim
      · rw [show pg = pageAt 2 [2, 3, 4, 5] q from hpg]
        have hdisjoint : ∀ x ∈ [6, 7], x ∉ [2, 3, 4, 5] := by decide
        exact fun x hx hx' => hdisjoint x (hsub hx) (hsub hx')
    · split
      · trivial
      · refine ⟨trivial, ?_⟩
        split
        · trivial
        · refine ⟨trivial, ?_⟩
          split
          · trivial
          · trivial

theorem longest_prefix_store_namespaces :
    ∃ r A, (CacheRun.start sampleConfig 0).exec sampleConfig namespaceOps = some r ∧
      A = (CacheRun.start sampleConfig 0).store sampleConfig ∅ namespaceOps ∧
      r.cache.assoc sampleConfig = A ∧
      (∀ p pg pg', (p, pg) ∈ A → (p, pg') ∈ A → pg = pg') ∧
      (∀ now key, ∃ s' res, r.cache.matchPrefix sampleConfig now key = some (s', res) ∧
        A.Answers 2 (key.maybeToBigramView false).letters res.deviceIndices ∧
        s'.assoc sampleConfig = A) ∧
      ∀ t t' key key' s₁ s₂ res₁ res₂, r.cache.matchPrefix sampleConfig t key = some (s₁, res₁) →
        r.cache.matchPrefix sampleConfig t' key' = some (s₂, res₂) → key.extraKey ≠ key'.extraKey →
        res₁.deviceIndices.Disjoint res₂.deviceIndices := by
  obtain ⟨r, A, hexec, hA, hassoc, hpages, hmatch, hspaces⟩ :=
    longest_prefix_store sampleConfig 0 namespaceOps (by decide +kernel)
  exact ⟨r, A, hexec, hA, hassoc, hpages, hmatch, hspaces freshOps_namespaces⟩

end RadixCache

end Sglang.MemCache
