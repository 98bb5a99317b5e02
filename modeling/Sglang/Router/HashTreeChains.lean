import Sglang.Router.HashTreeRuns
import Sglang.Router.HashTreeWorkers

/-!
# The Hash Tree as an Index of Chains

The nodes of the tree spell chains of block hashes. When every worker announces the chains it holds,
parents first, and no hash ends two chains, the tree is the union of what the workers hold.

- `Indexes`: the tree lists a worker at the nodes of its chains, and nowhere else,
- `Indexes.stored`, `Indexes.removed`, `Indexes.cleared`: the three events,
- `Indexes.matchPrefix`: a lookup finds the longest chain that some worker holds, and its holders.
-/

namespace Sglang.Router

open List Function
open Lib

namespace TreeState

/-! ## Section 1: Listings -/

theorem Lists.lookup {s : TreeState} {i : NodeId} {w : KvWorkerId} (h : s.Lists i w) :
    ∃ n, s.nodes.lookup i = some n := by
  obtain ⟨n, hn, _⟩ := h
  exact ⟨n, hn⟩

theorem lists_modifyNode (s : TreeState) (i : NodeId) {f : Node → Node}
    (hf : ∀ n, (f n).workers = n.workers) (j : NodeId) (w : KvWorkerId) :
    (s.modifyNode i f).Lists j w ↔ s.Lists j w := by
  unfold modifyNode
  split
  · rfl
  · next n hn =>
    by_cases hj : j = i
    · subst hj
      rw [lists_setNode_self, hf]
      simp [Lists, hn]
    · exact lists_setNode_ne s _ w hj

theorem lists_detach {s : TreeState} {i : NodeId} {n : Node} (p : NodeId)
    (hi : s.nodes.lookup i = some n) (hempty : n.workers = ∅) (j : NodeId) (w : KvWorkerId) :
    (s.detach i n p).Lists j w ↔ s.Lists j w := by
  constructor
  · exact fun h => fewer_detach s i n p h
  · intro h
    have hji : j ≠ i := by
      rintro rfl
      obtain ⟨m, hm, hw⟩ := h
      rw [hi] at hm
      cases hm
      rw [hempty] at hw
      exact absurd hw (Finset.notMem_empty w)
    rw [← lists_modifyNode s p (f := fun parent =>
      { parent with children := parent.children.erase n.blockHash }) (fun _ => rfl)] at h
    obtain ⟨m, hm, hw⟩ := h
    refine ⟨m, ?_, hw⟩
    simpa [detach, Finmap.lookup_erase_ne hji] using hm

theorem lists_pruneCascade (s : TreeState) (i j : NodeId) (w : KvWorkerId) :
    (s.pruneCascade i).Lists j w ↔ s.Lists j w := by
  fun_induction pruneCascade s i with
  | case1 => rfl
  | case2 => rfl
  | case3 => rfl
  | case4 s cursor _ n hn p _ hprune _ => exact lists_detach p hn hprune.1 j w
  | case5 s cursor _ n hn p _ hprune =>
    rename_i ih
    exact ih.trans (lists_detach p hn hprune.1 j w)
  | case6 s cursor _ n hn p _ hprune _ _ _ => exact lists_detach p hn hprune.1 j w
  | case7 => rfl

theorem lists_removeTarget (worker : KvWorkerId) (s : TreeState) (i j : NodeId) (w : KvWorkerId) :
    (removeTarget worker s i).Lists j w ↔ s.Lists j w ∧ ¬ (j = i ∧ w = worker) := by
  have hset : ∀ n, s.nodes.lookup i = some n →
      ((s.setNode i { n with workers := n.workers.erase worker }).Lists j w ↔
        s.Lists j w ∧ ¬ (j = i ∧ w = worker)) := by
    intro n hn
    by_cases hj : j = i
    · subst hj
      rw [lists_setNode_self]
      simp [Lists, hn, and_comm]
    · rw [lists_setNode_ne s _ w hj]
      simp [hj]
  unfold removeTarget
  split
  · next hnone =>
    constructor
    · intro h
      refine ⟨h, ?_⟩
      rintro ⟨rfl, _⟩
      obtain ⟨n, hn, _⟩ := h
      rw [hnone] at hn
      cases hn
    · exact And.left
  · next n hn =>
    dsimp only
    split
    · rw [lists_pruneCascade]
      exact hset n hn
    · exact hset n hn

theorem lists_foldl_removeTarget (worker : KvWorkerId) (ids : List NodeId) :
    ∀ (s : TreeState) (j : NodeId) (w : KvWorkerId),
      (ids.foldl (removeTarget worker) s).Lists j w ↔ s.Lists j w ∧ ¬ (j ∈ ids ∧ w = worker) := by
  induction ids with
  | nil => simp
  | cons i ids ih =>
    intro s j w
    rw [foldl_cons, ih, lists_removeTarget, and_assoc, mem_cons]
    tauto

theorem lists_pruneIfPresent (s : TreeState) (i j : NodeId) (w : KvWorkerId) :
    (s.pruneIfPresent i).Lists j w ↔ s.Lists j w := by
  unfold pruneIfPresent
  split
  · exact lists_pruneCascade s i j w
  · rfl

theorem lists_foldl_pruneIfPresent (ids : List NodeId) : ∀ (s : TreeState) (j : NodeId)
    (w : KvWorkerId), (ids.foldl pruneIfPresent s).Lists j w ↔ s.Lists j w := by
  induction ids with
  | nil => exact fun _ _ _ => Iff.rfl
  | cons i ids ih =>
    intro s j w
    rw [foldl_cons, ih, lists_pruneIfPresent]

theorem lists_foldl_clearTarget {worker w : KvWorkerId} (hw : w ≠ worker) (ids : List NodeId) :
    ∀ (acc : TreeState × List NodeId) (j : NodeId),
      acc.1.Lists j w → (ids.foldl (clearTarget worker) acc).1.Lists j w := by
  induction ids with
  | nil => exact fun _ _ h => h
  | cons i ids ih =>
    intro acc j h
    rw [foldl_cons]
    apply ih
    rw [clearTarget_fst, modifyNode]
    split
    · exact h
    · next n hn =>
      by_cases hj : j = i
      · subst hj
        rw [lists_setNode_self]
        obtain ⟨m, hm, hmem⟩ := h
        rw [hn] at hm
        cases hm
        exact Finset.mem_erase.mpr ⟨hw, hmem⟩
      · rwa [lists_setNode_ne _ _ w hj]

theorem lists_clearWorker (s : TreeState) (order : HashOrder) (worker : KvWorkerId) {j : NodeId}
    (hj : j ≠ rootId) (w : KvWorkerId) :
    (s.clearWorker order worker).Lists j w ↔ s.Lists j w ∧ w ≠ worker := by
  constructor
  · intro h
    refine ⟨fewer_clearWorker s order worker h, ?_⟩
    rintro rfl
    exact not_shows_clearWorker s order w ⟨j, hj, h⟩
  · rintro ⟨h, hw⟩
    unfold clearWorker
    rw [lists_foldl_pruneIfPresent]
    exact lists_foldl_clearTarget hw _ (s, []) j h

/-! ## Section 2: Chains -/

/-- Chains of block hashes that are told apart by their last hash. -/
structure Determined (C : Set (List Int64)) : Prop where
  ne_nil : ∀ c ∈ C, c ≠ []
  unique : ∀ c ∈ C, ∀ d ∈ C, c.getLast? = d.getLast? → c = d

/-- The tree lists each worker at the nodes of its chains, and nowhere else. -/
structure Indexes (C : Set (List Int64)) (H : KvWorkerId → Set (List Int64)) (s : TreeState)
    (word : NodeId → List Int64) : Prop where
  core : Core s word
  held : s.Held []
  sound : ∀ {i w}, i ≠ rootId → s.Lists i w → word i ∈ H w
  complete : ∀ {w c}, c ∈ H w → ∃ i, i ≠ rootId ∧ s.Lists i w ∧ word i = c
  /-- A worker holds a chain with all its beginnings. -/
  closed : ∀ {w c d}, c ++ d ∈ H w → c ≠ [] → c ∈ H w
  known : ∀ {w c}, c ∈ H w → c ∈ C

namespace Core

variable {s : TreeState} {word : NodeId → List Int64}

theorem word_eq (h : Core s word) {i p : NodeId} {n : Node} (hi : s.nodes.lookup i = some n)
    (hp : n.parent = some p) : word i = word p ++ [n.blockHash] := by
  have hword := h.trie.word_child (heap_at hi) hp
  simpa [Node.cell, hp] using hword

theorem getLast?_word (h : Core s word) {i : NodeId} {n : Node} (hi : s.nodes.lookup i = some n)
    (hroot : i ≠ rootId) : (word i).getLast? = some n.blockHash := by
  obtain ⟨p, _, hp, _⟩ := h.parent hi hroot
  rw [h.word_eq hi hp]
  simp

theorem word_inj (h : Core s word) {i j : NodeId} {n m : Node} (hi : s.nodes.lookup i = some n)
    (hj : s.nodes.lookup j = some m) (heq : word i = word j) : i = j :=
  h.trie.word_injective (heap_at hi) (heap_at hj) heq

theorem exists_leaf_below (h : Core s word) {i : NodeId} {n : Node}
    (hi : s.nodes.lookup i = some n) :
    ∃ j m, s.nodes.lookup j = some m ∧ m.children.keys = ∅ ∧ word i <+: word j := by
  classical
  have hne : (s.nodes.keys.filter fun j => word i <+: word j).Nonempty :=
    ⟨i, Finset.mem_filter.mpr
      ⟨Finmap.mem_keys.mpr (Finmap.mem_of_lookup_eq_some hi), prefix_rfl⟩⟩
  obtain ⟨j, hj, hmax⟩ := Finset.exists_max_image _ (fun j => (word j).length) hne
  obtain ⟨hmem, hpre⟩ := Finset.mem_filter.mp hj
  obtain ⟨m, hm⟩ := Finmap.mem_iff.mp (Finmap.mem_keys.mp hmem)
  refine ⟨j, m, hm, children_empty_iff.mpr fun bh => ?_, hpre⟩
  cases hc : m.children.lookup bh with
  | none => rfl
  | some k =>
    -- a child would be longer
    obtain ⟨l, hl, hpar, _⟩ := h.child hm hc
    have hlt := h.trie.word_length_lt (heap_at hl) hpar
    have hle := hmax k (Finset.mem_filter.mpr
      ⟨Finmap.mem_keys.mpr (Finmap.mem_of_lookup_eq_some hl), ?_⟩)
    · omega
    · rw [h.word_eq hl hpar]
      exact hpre.trans (prefix_append _ _)

end Core

namespace Indexes

variable {C : Set (List Int64)} {H : KvWorkerId → Set (List Int64)} {s : TreeState}
  {word : NodeId → List Int64}

theorem exists_holder (h : Indexes C H s word) {i : NodeId} {n : Node}
    (hi : s.nodes.lookup i = some n) (hroot : i ≠ rootId) : ∃ w, word i ∈ H w := by
  obtain ⟨j, m, hm, hleaf, d, hd⟩ := h.core.exists_leaf_below hi
  have hne : word i ≠ [] := by
    intro hnil
    have hlast := h.core.getLast?_word hi hroot
    rw [hnil] at hlast
    cases hlast
  have hj : j ≠ rootId := by
    rintro rfl
    rw [h.core.trie.word_root] at hd
    exact hne (append_eq_nil_iff.mp hd).1
  obtain ⟨p, _, hp, _⟩ := h.core.parent hm hj
  have hworkers : m.workers ≠ ∅ := fun hempty =>
    absurd (h.held hm hp ⟨hempty, hleaf⟩) not_mem_nil
  obtain ⟨w, hw⟩ := Finset.nonempty_iff_ne_empty.mpr hworkers
  have hmem := h.sound hj ⟨m, hm, hw⟩
  rw [← hd] at hmem
  exact ⟨w, h.closed hmem hne⟩

theorem lists_iff (h : Indexes C H s word) {i : NodeId} {n : Node}
    (hi : s.nodes.lookup i = some n) (hroot : i ≠ rootId) (w : KvWorkerId) :
    s.Lists i w ↔ word i ∈ H w := by
  refine ⟨h.sound hroot, fun hmem => ?_⟩
  obtain ⟨j, _, hl, heq⟩ := h.complete hmem
  obtain ⟨m, hm⟩ := hl.lookup
  rwa [h.core.word_inj hi hm heq.symm]

/-- `resolve_parent` finds the node of the chain that the worker names by its last hash. -/
theorem resolveParent (hC : Determined C) (h : Indexes C H s word) (order : HashOrder)
    {w : KvWorkerId} {c : List Int64} (hc : c = [] ∨ c ∈ H w) :
    ∃ n, s.nodes.lookup (s.resolveParent order w c.getLast?) = some n ∧
      word (s.resolveParent order w c.getLast?) = c := by
  rcases hc with rfl | hc
  · obtain ⟨n, hn, _⟩ := h.core.root
    exact ⟨n, hn, h.core.trie.word_root⟩
  · obtain ⟨i, hroot, hl, hword⟩ := h.complete hc
    obtain ⟨n, hn⟩ := hl.lookup
    have hlast := h.core.getLast?_word hn hroot
    rw [hword] at hlast
    obtain ⟨p, _, hp, _⟩ := h.core.parent hn hroot
    obtain ⟨ids, hids, hmem⟩ := (h.core.by_hash n.blockHash i).mpr ⟨n, p, hn, hp, rfl⟩
    -- no other node has this hash
    have honly : ids = {i} := by
      ext k
      rw [Finset.mem_singleton]
      constructor
      · intro hk
        obtain ⟨m, q, hm, hq, hhash⟩ := (h.core.by_hash n.blockHash k).mp ⟨ids, hids, hk⟩
        have hkroot := h.core.ne_root hm hq
        obtain ⟨v, hv⟩ := h.exists_holder hm hkroot
        apply h.core.word_inj hm hn
        apply hC.unique _ (h.known hv) _ (hword ▸ h.known hc)
        rw [hword, hlast, h.core.getLast?_word hm hkroot, hhash]
      · rintro rfl
        exact hmem
    have hlist : order.list {i} = [i] := by
      have hnodup := order.nodup {i}
      have hmem : ∀ x, x ∈ order.list {i} ↔ x = i := fun x => by simp [order.mem]
      match hl : order.list {i} with
      | [] => simp [hl] at hmem
      | [x] =>
        rw [hl] at hmem
        rw [(hmem x).mp (mem_singleton_self x)]
      | x :: y :: l =>
        rw [hl] at hmem hnodup
        have hx := (hmem x).mp (by simp)
        have hy := (hmem y).mp (by simp)
        simp [hx, hy] at hnodup
    have hres : s.resolveParent order w c.getLast? = i := by
      simp [TreeState.resolveParent, hlast, hids, honly, hlist]
    rw [hres]
    exact ⟨n, hn, hword⟩

/-! ## Section 3: Events -/

/-- What a worker holds after it stored one more chain. -/
def hold (H : KvWorkerId → Set (List Int64)) (w : KvWorkerId) (c : List Int64) :
    KvWorkerId → Set (List Int64) := update H w (Insert.insert c (H w))

theorem mem_hold {w v : KvWorkerId} {c d : List Int64} :
    d ∈ hold H w c v ↔ d ∈ H v ∨ v = w ∧ d = c := by
  unfold hold
  by_cases hv : v = w
  · subst hv
    simp [or_comm]
  · simp [hv]

theorem listed (h : Indexes C H s word) {t : TreeState} {word' : NodeId → List Int64} {id : NodeId}
    {w : KvWorkerId} {c : List Int64} {x : Int64} (hc : c = [] ∨ c ∈ H w) (hmem : c ++ [x] ∈ C)
    (hcore : Core t word') (hheld : t.Held []) (hid : id ≠ rootId) (hword : word' id = c ++ [x])
    (hold' : ∀ {j n}, s.nodes.lookup j = some n → word' j = word j)
    (hlists : ∀ j v, t.Lists j v ↔ s.Lists j v ∨ j = id ∧ v = w) :
    Indexes C (hold H w (c ++ [x])) t word' := by
  refine ⟨hcore, hheld, ?_, ?_, ?_, ?_⟩
  · intro j v hj hl
    rw [mem_hold]
    rcases (hlists j v).mp hl with hl | ⟨rfl, rfl⟩
    · obtain ⟨n, hn⟩ := hl.lookup
      rw [hold' hn]
      exact .inl (h.sound hj hl)
    · exact .inr ⟨rfl, hword⟩
  · intro v d hd
    rcases mem_hold.mp hd with hd | ⟨rfl, rfl⟩
    · obtain ⟨j, hj, hl, hjd⟩ := h.complete hd
      obtain ⟨n, hn⟩ := hl.lookup
      exact ⟨j, hj, (hlists j v).mpr (.inl hl), (hold' hn).trans hjd⟩
    · exact ⟨id, hid, (hlists id v).mpr (.inr ⟨rfl, rfl⟩), hword⟩
  · intro v d e hde hne
    rw [mem_hold] at hde ⊢
    rcases hde with hde | ⟨rfl, heq⟩
    · exact .inl (h.closed hde hne)
    · -- a beginning of the new chain is the chain, or one of the parent
      rcases eq_nil_or_concat e with rfl | ⟨e, y, rfl⟩
      · rw [append_nil] at heq
        exact .inr ⟨rfl, heq⟩
      · rw [concat_eq_append, ← append_assoc] at heq
        have hdc : d ++ e = c := (append_inj' heq rfl).1
        rcases hc with rfl | hc
        · exact absurd (append_eq_nil_iff.mp hdc).1 hne
        · rw [← hdc] at hc
          exact .inl (h.closed hc hne)
  · intro v d hd
    rcases mem_hold.mp hd with hd | ⟨_, rfl⟩
    · exact h.known hd
    · exact hmem

theorem stored (hC : Determined C) (h : Indexes C H s word) (order : HashOrder) (now : Nat)
    {w : KvWorkerId} {c : List Int64} {x : Int64} (hc : c = [] ∨ c ∈ H w) (hmem : c ++ [x] ∈ C) :
    ∃ word', Indexes C (hold H w (c ++ [x])) (s.insert order now w c.getLast? [x]) word' := by
  obtain ⟨n, hn, hword⟩ := h.resolveParent hC order hc
  have hinsert : s.insert order now w c.getLast? [x] =
      insertLoop now w s (s.resolveParent order w c.getLast?) c.getLast? [x] := by
    simp [TreeState.insert]
  rw [hinsert]
  generalize s.resolveParent order w c.getLast? = i at hn hword ⊢
  cases hfound : n.children.lookup x with
  | some id =>
    -- the node is there and gets the worker
    obtain ⟨m, hm, hpar, hhash⟩ := h.core.child hn hfound
    have hloop : insertLoop now w s i c.getLast? [x] = s.setNode id
        { m with workers := Insert.insert w m.workers, lastUsed := now } := by
      simp [insertLoop, hn, hfound, hm]
    have hidword : word id = c ++ [x] := by rw [h.core.word_eq hm hpar, hword, hhash]
    rw [hloop]
    refine ⟨word, h.listed hc hmem (h.core.touch hm rfl rfl) (h.held.touch ?_ (by simp))
      (h.core.ne_root hm hpar) hidword (fun _ => rfl) ?_⟩
    · exact fun hp => absurd hp.1 (by simp)
    · intro j v
      by_cases hj : j = id
      · subst hj
        rw [lists_setNode_self, Finset.mem_insert]
        simp [Lists, hm, or_comm]
      · rw [lists_setNode_ne s _ v hj]
        simp [hj]
  | none =>
    obtain ⟨t, heq, _⟩ := createChild_eq h.core now hn x c.getLast?
    obtain ⟨ht, hnew, hi, hother⟩ := h.core.createChild hn hfound heq
    have hne : i ≠ s.nextId := (h.core.fresh hn).ne
    have hloop : insertLoop now w s i c.getLast? [x] = t.setNode s.nextId
        { Node.newChild x c.getLast? i now with workers := {w}, lastUsed := now } := by
      simp [insertLoop, hn, hfound, heq, hnew, Node.newChild]
    have hlists : ∀ j v, j ≠ s.nextId → (t.Lists j v ↔ s.Lists j v) := by
      intro j v hj
      by_cases hji : j = i
      · subst hji
        simp [Lists, hi, hn]
      · rw [Lists, Lists, hother j hj hji]
    have hroot : s.nextId ≠ rootId := ht.ne_root hnew rfl
    rw [hloop]
    refine ⟨_, h.listed hc hmem (ht.touch hnew rfl rfl)
      ((h.held.createChild h.core hn hfound heq).touch ?_ ?_) hroot ?_ ?_ ?_⟩
    · exact fun hp => absurd hp.1 (by simp)
    · intro j hj hjne
      exact absurd (mem_singleton.mp hj) hjne
    · rw [update_self, hword]
    · intro j m hm
      rw [update_of_ne (h.core.fresh hm).ne]
    · intro j v
      by_cases hj : j = s.nextId
      · subst hj
        rw [lists_setNode_self, Finset.mem_singleton]
        have hgone : ¬ s.Lists s.nextId v := by
          rintro ⟨m, hm, _⟩
          exact absurd (h.core.fresh hm) (lt_irrefl _)
        simp [hgone]
      · rw [lists_setNode_ne t _ v hj, hlists j v hj]
        simp [hj]

theorem unlisted (h : Indexes C H s word) {t : TreeState} {H' : KvWorkerId → Set (List Int64)}
    (hcore : Core t word) (hheld : t.Held []) (hsub : ∀ w, H' w ⊆ H w)
    (hclosed : ∀ {w c d}, c ++ d ∈ H' w → c ≠ [] → c ∈ H' w)
    (hlists : ∀ {j v}, j ≠ rootId → (t.Lists j v ↔ s.Lists j v ∧ word j ∈ H' v)) :
    Indexes C H' t word := by
  refine ⟨hcore, hheld, ?_, ?_, hclosed, fun hc => h.known (hsub _ hc)⟩
  · exact fun hj hl => ((hlists hj).mp hl).2
  · intro v c hc
    obtain ⟨j, hj, hl, rfl⟩ := h.complete (hsub v hc)
    exact ⟨j, hj, (hlists hj).mpr ⟨hl, hc⟩, rfl⟩

/-- What is left when a worker drops the chains with these last hashes. -/
def dropLast (H : KvWorkerId → Set (List Int64)) (w : KvWorkerId) (xs : List Int64) :
    KvWorkerId → Set (List Int64) :=
  update H w {c | c ∈ H w ∧ ∀ x ∈ xs, c.getLast? ≠ some x}

theorem removed (h : Indexes C H s word) (order : HashOrder) {w : KvWorkerId} {xs : List Int64}
    (hclosed : ∀ {c d}, c ++ d ∈ dropLast H w xs w → c ≠ [] → c ∈ dropLast H w xs w) :
    Indexes C (dropLast H w xs) (s.remove order w xs) word := by
  have hother : ∀ {v}, v ≠ w → dropLast H w xs v = H v := fun hv => update_of_ne hv _ _
  have hself : dropLast H w xs w = {c | c ∈ H w ∧ ∀ x ∈ xs, c.getLast? ≠ some x} :=
    update_self ..
  unfold TreeState.remove
  dsimp only
  generalize htargets : xs.flatMap _ = targets
  obtain ⟨hcore, hheld⟩ := h.core.foldl_removeTarget w targets h.held
  refine h.unlisted hcore hheld ?_ ?_ ?_
  · intro v c hc
    by_cases hv : v = w
    · subst hv
      rw [hself] at hc
      exact hc.1
    · rwa [hother hv] at hc
  · intro v c d hcd hne
    by_cases hv : v = w
    · subst hv
      exact hclosed hcd hne
    · rw [hother hv] at hcd ⊢
      exact h.closed hcd hne
  · intro j v hj
    rw [lists_foldl_removeTarget]
    apply and_congr_right
    intro hl
    obtain ⟨n, hn⟩ := hl.lookup
    have hlast := h.core.getLast?_word hn hj
    -- the targets are the nodes with these hashes
    have htarget : j ∈ targets ↔ n.blockHash ∈ xs := by
      obtain ⟨p, _, hp, _⟩ := h.core.parent hn hj
      rw [← htargets, mem_flatMap]
      constructor
      · rintro ⟨x, hx, hmem⟩
        split at hmem
        · exact absurd hmem not_mem_nil
        · next ids hids =>
          obtain ⟨m, _, hm, _, hhash⟩ :=
            (h.core.by_hash x j).mp ⟨ids, hids, (order.mem _ _).mp hmem⟩
          rw [hn] at hm
          cases hm
          rwa [hhash]
      · intro hx
        obtain ⟨ids, hids, hmem⟩ := (h.core.by_hash n.blockHash j).mpr ⟨n, p, hn, hp, rfl⟩
        refine ⟨n.blockHash, hx, ?_⟩
        rw [hids]
        exact (order.mem _ _).mpr hmem
    rw [htarget]
    by_cases hv : v = w
    · subst hv
      have hmem := h.sound hj hl
      simp only [hself, Set.mem_ofPred_eq, hmem, true_and, and_true, hlast, Option.some.injEq,
        ne_eq]
      constructor
      · rintro hnot x hx rfl
        exact hnot hx
      · exact fun hall hx => hall _ hx rfl
    · rw [hother hv]
      simp [hv, h.sound hj hl]

theorem cleared (h : Indexes C H s word) (order : HashOrder) (w : KvWorkerId) :
    Indexes C (update H w ∅) (s.clearWorker order w) word := by
  obtain ⟨hcore, hheld⟩ := h.core.clearWorker h.held order w
  refine h.unlisted hcore hheld ?_ ?_ ?_
  · intro v c hc
    by_cases hv : v = w
    · subst hv
      rw [update_self] at hc
      exact hc.elim
    · rwa [update_of_ne hv] at hc
  · intro v c d hcd hne
    by_cases hv : v = w
    · subst hv
      rw [update_self] at hcd
      exact hcd.elim
    · rw [update_of_ne hv] at hcd ⊢
      exact h.closed hcd hne
  · intro j v hj
    rw [lists_clearWorker s order w hj]
    apply and_congr_right
    intro hl
    by_cases hv : v = w
    · subst hv
      simp
    · simp [hv, h.sound hj hl]

end Indexes

/-! ## Section 4: Lookups -/

/-- What a walk down the tree from a node returns. -/
structure Walked (s : TreeState) (word : NodeId → List Int64) (base hs : List Int64)
    (last : Option NodeId) (matched : Nat) (r : TreeState × Option NodeId × Nat) (k : Nat) :
    Prop where
  le : k ≤ hs.length
  matched_eq : r.2.2 = matched + k
  none : k = 0 → r.2.1 = last
  some : 0 < k → ∃ id, r.2.1 = some id ∧ id ∈ s.nodes ∧ word id = base ++ hs.take k
  /-- No node spells one hash more. -/
  stop : k < hs.length → ∀ j ∈ s.nodes, word j ≠ base ++ hs.take (k + 1)
  lists : ∀ j v, r.1.Lists j v ↔ s.Lists j v

theorem matchLoop_walked {now : Nat} {word : NodeId → List Int64} (hs : List Int64) :
    ∀ {s : TreeState} {current : NodeId} {n : Node} (last : Option NodeId) (matched : Nat),
      Core s word → s.nodes.lookup current = some n →
      ∃ k, Walked s word (word current) hs last matched
      (matchLoop now s current last matched hs) k := by
  induction hs with
  | nil =>
    intro s current n last matched _ _
    exact ⟨0, Nat.le_refl _, rfl, fun _ => rfl, by simp, by simp, fun _ _ => Iff.rfl⟩
  | cons x hs ih =>
    intro s current n last matched hcore hn
    cases hchild : n.children.lookup x with
    | none =>
      have hloop : matchLoop now s current last matched (x :: hs) = (s, last, matched) := by
        simp [matchLoop, hn, hchild]
      rw [hloop]
      refine ⟨0, Nat.zero_le _, rfl, fun _ => rfl, by simp, ?_, fun _ _ => Iff.rfl⟩
      -- a node of this word would be that child
      intro _ j hj hword
      obtain ⟨m, hm⟩ := Finmap.mem_iff.mp hj
      have hroot : j ≠ rootId := by
        rintro rfl
        rw [hcore.trie.word_root] at hword
        simp at hword
      obtain ⟨p, pn, hp, hpn, hfile⟩ := hcore.parent hm hroot
      rw [hcore.word_eq hm hp, take_succ_cons, take_zero] at hword
      obtain ⟨hwp, hx⟩ := append_inj' hword rfl
      have hpc := hcore.word_inj hpn hn hwp
      subst hpc
      rw [hn] at hpn
      cases hpn
      cases hx
      rw [hchild] at hfile
      cases hfile
    | some id =>
      obtain ⟨m, hm, hpar, hhash⟩ := hcore.child hn hchild
      have hword : word id = word current ++ [x] := by rw [hcore.word_eq hm hpar, hhash]
      have hloop : matchLoop now s current last matched (x :: hs) =
          matchLoop now (s.setNode id { m with lastUsed := now }) id (some id)
            (matched + 1) hs := by
        simp [matchLoop, hn, hchild, modifyNode_at hm]
      have hnodes : ∀ j, j ∈ (s.setNode id { m with lastUsed := now }).nodes ↔ j ∈ s.nodes := by
        intro j
        rw [← Finmap.mem_keys, ← Finmap.mem_keys,
          ← modifyNode_at hm (fun n => { n with lastUsed := now }), keys_modifyNode]
      obtain ⟨k, hk⟩ :=
        ih (some id) (matched + 1) (hcore.touch (n := { m with lastUsed := now }) hm rfl rfl)
        (lookup_setNode_self s id _)
      rw [hloop]
      refine ⟨k + 1, ?_, ?_, by simp, ?_, ?_, ?_⟩
      · simpa using hk.le
      · rw [hk.matched_eq]
        omega
      · intro _
        rcases Nat.eq_zero_or_pos k with rfl | hpos
        · refine ⟨id, hk.none rfl, Finmap.mem_of_lookup_eq_some hm, ?_⟩
          simpa using hword
        · obtain ⟨j, hlast, hj, hjword⟩ := hk.some hpos
          refine ⟨j, hlast, (hnodes j).mp hj, ?_⟩
          rw [hjword, hword, take_succ_cons, append_assoc]
          rfl
      · intro hlt j hj
        have hstop := hk.stop (by simpa using hlt) j ((hnodes j).mpr hj)
        rw [hword, append_assoc] at hstop
        exact hstop
      · intro j v
        rw [hk.lists, ← modifyNode_at hm (fun n => { n with lastUsed := now })]
        exact lists_modifyNode s id (f := fun n => { n with lastUsed := now }) (fun _ => rfl) j v

/-- A lookup from the root finds the longest beginning of the chain that a worker holds, and the
workers that hold it. -/
theorem Indexes.matchPrefix {C : Set (List Int64)} {H : KvWorkerId → Set (List Int64)}
    {s : TreeState} {word : NodeId → List Int64} (hC : Determined C) (h : Indexes C H s word)
    (order : HashOrder) (now : Nat) (chain : List Int64) :
    IsGreatest {k | k ≤ chain.length ∧ (k = 0 ∨ ∃ w, chain.take k ∈ H w)}
        (s.matchPrefix order now none chain).2.matchedBlocks ∧
      ∀ w, w ∈ (s.matchPrefix order now none chain).2.workers ↔
        chain.take (s.matchPrefix order now none chain).2.matchedBlocks ∈ H w := by
  have hnil : ∀ w, [] ∉ H w := fun w hmem => hC.ne_nil [] (h.known hmem) rfl
  obtain ⟨rn, hrn, _⟩ := h.core.root
  obtain ⟨k, hk⟩ := @matchLoop_walked now word chain s rootId rn none 0 h.core hrn
  rw [h.core.trie.word_root] at hk
  by_cases hchain : chain = []
  · subst hchain
    have hresult : (s.matchPrefix order now none []).2 = ⟨0, ∅⟩ := by simp [TreeState.matchPrefix]
    rw [hresult]
    refine ⟨⟨by simp, fun j hj => by simpa using hj.1⟩, fun w => ?_⟩
    simp [hnil w]
  · have hresult : (s.matchPrefix order now none chain).2 =
        ⟨k, (((matchLoop now s rootId none 0 chain).2.1.bind fun id =>
          (matchLoop now s rootId none 0 chain).1.nodes.lookup id).map Node.workers).getD ∅⟩ := by
      have hmatched := hk.matched_eq
      rw [Nat.zero_add] at hmatched
      simp [TreeState.matchPrefix, hchain, hmatched]
    rw [hresult]
    -- the nodes on the way are the chains that some worker holds
    have hheld : ∀ j, 0 < j →
        ((∃ w, chain.take j ∈ H w) ↔ ∃ i ∈ s.nodes, i ≠ rootId ∧ word i = chain.take j) := by
      intro j _
      constructor
      · rintro ⟨w, hw⟩
        obtain ⟨i, hi, hl, hword⟩ := h.complete hw
        obtain ⟨n, hn⟩ := hl.lookup
        exact ⟨i, Finmap.mem_of_lookup_eq_some hn, hi, hword⟩
      · rintro ⟨i, hi, hroot, hword⟩
        obtain ⟨n, hn⟩ := Finmap.mem_iff.mp hi
        rw [← hword]
        exact h.exists_holder hn hroot
    have hfound : 0 < k → ∃ id n, (matchLoop now s rootId none 0 chain).2.1 = some id ∧
        s.nodes.lookup id = some n ∧ id ≠ rootId ∧ word id = chain.take k := by
      intro hpos
      obtain ⟨id, hlast, hid, hword⟩ := hk.some hpos
      obtain ⟨n, hn⟩ := Finmap.mem_iff.mp hid
      refine ⟨id, n, hlast, hn, ?_, hword⟩
      rintro rfl
      rw [h.core.trie.word_root] at hword
      have hlen := congrArg List.length hword
      have hle := hk.le
      rw [nil_append, length_nil, length_take] at hlen
      omega
    refine ⟨⟨⟨hk.le, ?_⟩, ?_⟩, ?_⟩
    · rcases Nat.eq_zero_or_pos k with rfl | hpos
      · exact .inl rfl
      · obtain ⟨id, n, _, hn, hroot, hword⟩ := hfound hpos
        exact .inr ((hheld k hpos).mpr ⟨id, Finmap.mem_of_lookup_eq_some hn, hroot, hword⟩)
    · rintro j ⟨hj, hholds⟩
      change j ≤ k
      by_contra hlt
      rw [not_le] at hlt
      -- a longer beginning has one more hash than the last node
      obtain ⟨w, hw⟩ := hholds.resolve_left (by omega)
      have hpre : chain.take j = chain.take (k + 1) ++ (chain.drop (k + 1)).take (j - (k + 1)) := by
        rw [← take_add]
        congr 1
        omega
      rw [hpre] at hw
      have hne : chain.take (k + 1) ≠ [] := by
        intro hempty
        have hlen := congrArg List.length hempty
        rw [length_take, length_nil] at hlen
        omega
      obtain ⟨i, hi, _, hword⟩ := (hheld (k + 1) (Nat.succ_pos k)).mp ⟨w, h.closed hw hne⟩
      exact hk.stop (by omega) i hi hword
    · intro w
      rcases Nat.eq_zero_or_pos k with rfl | hpos
      · simp [hk.none rfl, hnil w]
      · obtain ⟨id, n, hlast, hn, hroot, hword⟩ := hfound hpos
        have hl := (hk.lists id w).trans (h.lists_iff hn hroot w)
        simp only at hl ⊢
        rw [← hword, ← hl, hlast, Option.bind_some]
        constructor
        · intro hmem
          cases hm : (matchLoop now s rootId none 0 chain).1.nodes.lookup id with
          | none =>
            rw [hm] at hmem
            exact absurd hmem (Finset.notMem_empty w)
          | some m =>
            rw [hm] at hmem
            exact ⟨m, hm, hmem⟩
        · rintro ⟨m, hm, hmem⟩
          rw [hm]
          exact hmem

end TreeState

end Sglang.Router
