import Sglang.Router.HashTree

/-!
# The Hash Tree Invariant

- `Core`: the arena is a trie under the root and `by_hash` lists its nodes,
- `Held`: the non-root leaves without a worker are those that still wait to be pruned,
- `Core.createChild`, `Core.pruneCascade`: the two operations that change the shape of the tree.
-/

namespace Sglang.Router

open List Function
open Lib

/-! ## Section 1: The trie behind the arena -/

/-- The trie cell of a node; the root has no label. -/
def Node.cell (n : Node) : PageTrie.Cell Int64 Int64 where
  parent := n.parent
  label := if n.parent.isSome then [n.blockHash] else []
  child := fun h => n.children.lookup h

/-- Children are filed under their block hash. -/
def hashIdx (label : List Int64) : Int64 := label.headD 0

theorem children_empty_iff {n : Node} : n.children.keys = ∅ ↔ ∀ h, n.children.lookup h = none := by
  constructor
  · intro hk h
    rw [Finmap.lookup_eq_none, ← Finmap.mem_keys, hk]
    exact Finset.notMem_empty h
  · intro hnone
    ext h
    rw [Finmap.mem_keys, ← not_iff_not, ← Finmap.lookup_eq_none]
    simp [hnone h]

namespace TreeState

def heap (s : TreeState) : PageTrie.Heap Int64 Int64 := fun i => (s.nodes.lookup i).map Node.cell

variable {s : TreeState} {i : NodeId}

theorem heap_at {n : Node} (h : s.nodes.lookup i = some n) :
    s.heap i = some n.cell := by
  simp [heap, h]

theorem heap_none (h : s.nodes.lookup i = none) : s.heap i = none := by
  simp [heap, h]

theorem heap_some {c : PageTrie.Cell Int64 Int64}
    (h : s.heap i = some c) : ∃ n, s.nodes.lookup i = some n ∧ c = n.cell := by
  obtain ⟨n, hn, rfl⟩ := Option.map_eq_some_iff.mp h
  exact ⟨n, hn, rfl⟩

@[simp] theorem lookup_setNode_self (s : TreeState) (i : NodeId) (n : Node) :
    (s.setNode i n).nodes.lookup i = some n := by
  simp [setNode]

theorem lookup_setNode_ne (s : TreeState) {i j : NodeId} (n : Node) (h : j ≠ i) :
    (s.setNode i n).nodes.lookup j = s.nodes.lookup j := by
  simp [setNode, Finmap.lookup_insert_of_ne _ h]

theorem heap_setNode (s : TreeState) (i : NodeId) (n : Node) :
    (s.setNode i n).heap = update s.heap i (some n.cell) := by
  funext j
  by_cases hj : j = i
  · subst hj
    simp [heap]
  · rw [update_of_ne hj, heap, heap, lookup_setNode_ne s n hj]

theorem modifyNode_at {n : Node} (h : s.nodes.lookup i = some n)
    (f : Node → Node) : s.modifyNode i f = s.setNode i (f n) := by
  simp [modifyNode, h]

/-! ## Section 2: The invariant -/

/-- The arena is a trie under the root, and `by_hash` lists its nodes by hash. -/
structure Core (s : TreeState) (word : NodeId → List Int64) : Prop where
  trie : PageTrie.WellFormed hashIdx 1 rootId s.heap word
  fresh : ∀ {i n}, s.nodes.lookup i = some n → i < s.nextId
  by_hash : ∀ h i, (∃ ids, s.byHash.lookup h = some ids ∧ i ∈ ids) ↔
    ∃ n p, s.nodes.lookup i = some n ∧ n.parent = some p ∧ n.blockHash = h
  by_hash_ne : ∀ {h ids}, s.byHash.lookup h = some ids → ids ≠ ∅

/-- Only the nodes of `pending` are leaves without a worker. -/
def Held (s : TreeState) (pending : List NodeId) : Prop :=
  ∀ ⦃i n p⦄, s.nodes.lookup i = some n → n.parent = some p → n.Prunable → i ∈ pending

theorem Held.mono {pending pending' : List NodeId} (h : s.Held pending)
    (hsub : ∀ {i n p}, s.nodes.lookup i = some n → n.parent = some p → i ∈ pending → i ∈ pending') :
    s.Held pending' :=
  fun _ _ _ hi hp hprune => hsub hi hp (h hi hp hprune)

namespace Core

variable {s : TreeState} {word : NodeId → List Int64}

theorem root (h : Core s word) : ∃ n, s.nodes.lookup rootId = some n ∧ n.parent = none := by
  obtain ⟨c, hc, hnone, _⟩ := h.trie.root_cell
  obtain ⟨n, hn, rfl⟩ := heap_some hc
  exact ⟨n, hn, hnone⟩

theorem ne_root (h : Core s word) {i p : NodeId} {n : Node} (hi : s.nodes.lookup i = some n)
    (hp : n.parent = some p) : i ≠ rootId :=
  h.trie.ne_root_of_parent (heap_at hi) hp

theorem parent (h : Core s word) {i : NodeId} {n : Node} (hi : s.nodes.lookup i = some n)
    (hroot : i ≠ rootId) : ∃ p pn, n.parent = some p ∧ s.nodes.lookup p = some pn ∧
      pn.children.lookup n.blockHash = some i := by
  obtain ⟨p, pc, hp, hpc, hfile⟩ := h.trie.filed (heap_at hi) hroot
  obtain ⟨pn, hpn, rfl⟩ := heap_some hpc
  have hp : n.parent = some p := hp
  refine ⟨p, pn, hp, hpn, ?_⟩
  simpa [Node.cell, hp, hashIdx] using hfile

theorem child (h : Core s word) {i p : NodeId} {pn : Node} {bh : Int64}
    (hp : s.nodes.lookup p = some pn) (hc : pn.children.lookup bh = some i) :
    ∃ n, s.nodes.lookup i = some n ∧ n.parent = some p ∧ n.blockHash = bh := by
  obtain ⟨c, hci, hpar, hidx⟩ := h.trie.child_cell (heap_at hp) hc
  obtain ⟨n, hn, rfl⟩ := heap_some hci
  have hpar : n.parent = some p := hpar
  refine ⟨n, hn, hpar, ?_⟩
  simpa [Node.cell, hpar, hashIdx] using hidx

theorem touch (h : Core s word) {i : NodeId} {m n : Node} (hi : s.nodes.lookup i = some m)
    (hcell : n.cell = m.cell) (hhash : n.blockHash = m.blockHash) : Core (s.setNode i n) word := by
  have hheap : (s.setNode i n).heap = s.heap := by
    rw [heap_setNode, hcell, ← heap_at hi, update_eq_self]
  have hparent : n.parent = m.parent := congrArg PageTrie.Cell.parent hcell
  refine ⟨by rw [hheap]; exact h.trie, ?_, ?_, h.by_hash_ne⟩
  · intro j nj hj
    by_cases hji : j = i
    · subst hji
      exact h.fresh hi
    · rw [lookup_setNode_ne s n hji] at hj
      exact h.fresh hj
  · intro bh j
    refine (h.by_hash bh j).trans ?_
    by_cases hji : j = i
    · subst hji
      simp [hi, hparent, hhash]
    · rw [lookup_setNode_ne s n hji]

end Core

theorem Held.touch {pending pending' : List NodeId} (h : s.Held pending) {n : Node}
    (hi : n.Prunable → i ∈ pending') (hrest : ∀ j ∈ pending, j ≠ i → j ∈ pending') :
    (s.setNode i n).Held pending' := by
  intro j nj p hj hp hprune
  by_cases hji : j = i
  · subst hji
    rw [lookup_setNode_self] at hj
    cases hj
    exact hi hprune
  · rw [lookup_setNode_ne s n hji] at hj
    exact hrest j (h hj hp hprune) hji

/-! ## Section 3: Creation -/

theorem lookup_children_insert (n : Node) (bh : Int64) (i : NodeId) :
    ({ n with children := n.children.insert bh i } : Node).cell = n.cell.setChild bh (some i) := by
  unfold Node.cell PageTrie.Cell.setChild
  congr 1
  funext k
  by_cases hk : k = bh
  · subst hk
    simp
  · rw [update_of_ne hk, Finmap.lookup_insert_of_ne _ hk]

theorem lookup_children_erase (n : Node) (bh : Int64) :
    ({ n with children := n.children.erase bh } : Node).cell = n.cell.setChild bh none := by
  unfold Node.cell PageTrie.Cell.setChild
  congr 1
  funext k
  by_cases hk : k = bh
  · subst hk
    simp
  · rw [update_of_ne hk, Finmap.lookup_erase_ne hk]

theorem createChild_eq {word : NodeId → List Int64} (h : Core s word) (now : Nat)
    {p : NodeId} {pn : Node} (hp : s.nodes.lookup p = some pn) (bh : Int64) (pbh : Option Int64) :
    ∃ t, s.createChild now p bh pbh = (t, some s.nextId) ∧ t.nextId = s.nextId + 1 ∧
      t.nodes = (s.nodes.insert s.nextId (.newChild bh pbh p now)).insert p
        { pn with children := pn.children.insert bh s.nextId } ∧
      t.byHash = s.byHash.insert bh (Insert.insert s.nextId ((s.byHash.lookup bh).getD ∅)) := by
  have hne : p ≠ s.nextId := (h.fresh hp).ne
  unfold createChild
  simp only [setNode, Finmap.lookup_insert_of_ne _ hne, hp]
  exact ⟨_, rfl, rfl, rfl, rfl⟩

section Create

variable {s t : TreeState} {word : NodeId → List Int64} {p : NodeId} {pn : Node} {bh : Int64}
  {pbh : Option Int64} {now : Nat}

theorem Core.createChild (h : Core s word) (hp : s.nodes.lookup p = some pn)
    (hfree : pn.children.lookup bh = none) (heq : s.createChild now p bh pbh = (t, some s.nextId)) :
    Core t (update word s.nextId (word p ++ [bh])) ∧
      t.nodes.lookup s.nextId = some (.newChild bh pbh p now) ∧
      t.nodes.lookup p = some { pn with children := pn.children.insert bh s.nextId } ∧
      ∀ i, i ≠ s.nextId → i ≠ p → t.nodes.lookup i = s.nodes.lookup i := by
  obtain ⟨t', heq', hnext, hnodes, hby⟩ := createChild_eq h now hp bh pbh
  rw [heq] at heq'
  cases heq'
  have hne : p ≠ s.nextId := (h.fresh hp).ne
  have hdead : s.nodes.lookup s.nextId = none := by
    cases hl : s.nodes.lookup s.nextId with
    | none => rfl
    | some n => exact absurd (h.fresh hl) (lt_irrefl _)
  have hnew : t.nodes.lookup s.nextId = some (.newChild bh pbh p now) := by
    rw [hnodes, Finmap.lookup_insert_of_ne _ hne.symm, Finmap.lookup_insert]
  have hpar : t.nodes.lookup p = some { pn with children := pn.children.insert bh s.nextId } := by
    rw [hnodes, Finmap.lookup_insert]
  have hother : ∀ i, i ≠ s.nextId → i ≠ p → t.nodes.lookup i = s.nodes.lookup i := by
    intro i hi hip
    rw [hnodes, Finmap.lookup_insert_of_ne _ hip, Finmap.lookup_insert_of_ne _ hi]
  have hheap : t.heap = PageTrie.addLeaf hashIdx 1 s.heap p pn.cell s.nextId [bh] := by
    funext i
    by_cases hip : i = p
    · subst hip
      rw [heap_at hpar, PageTrie.addLeaf_parent, lookup_children_insert]
      rfl
    · by_cases hi : i = s.nextId
      · subst hi
        rw [heap_at hnew, PageTrie.addLeaf_new hne]
        simp [Node.cell, Node.newChild, PageTrie.leafCell]
      · rw [PageTrie.addLeaf_other hi hip, heap, heap, hother i hi hip]
  refine ⟨⟨?_, ?_, ?_, ?_⟩, hnew, hpar, hother⟩
  · rw [hheap]
    exact h.trie.addLeaf (heap_at hp) (heap_none hdead) (by simp) (by simp) hfree
  · intro i n hi
    rw [hnext]
    by_cases hin : i = s.nextId
    · rw [hin]
      exact Nat.lt_succ_self _
    · by_cases hip : i = p
      · subst hip
        exact (h.fresh hp).trans (Nat.lt_succ_self _)
      · rw [hother i hin hip] at hi
        exact (h.fresh hi).trans (Nat.lt_succ_self _)
  · intro x i
    have hold := h.by_hash x i
    -- who is listed under `x`
    have hlist : (∃ ids, t.byHash.lookup x = some ids ∧ i ∈ ids) ↔
        (i = s.nextId ∧ x = bh) ∨ ∃ ids, s.byHash.lookup x = some ids ∧ i ∈ ids := by
      rw [hby]
      by_cases hx : x = bh
      · subst hx
        rw [Finmap.lookup_insert]
        cases hl : s.byHash.lookup x <;> simp
      · rw [Finmap.lookup_insert_of_ne _ hx]
        simp [hx]
    rw [hlist, hold]
    by_cases hin : i = s.nextId
    · subst hin
      rw [hnew, hdead]
      simp [Node.newChild, eq_comm]
    · by_cases hip : i = p
      · subst hip
        rw [hpar, hp]
        simp [hin]
      · rw [hother i hin hip]
        simp [hin]
  · intro x ids hx
    rw [hby] at hx
    by_cases hxb : x = bh
    · subst hxb
      rw [Finmap.lookup_insert] at hx
      cases hx
      exact Finset.insert_ne_empty _ _
    · rw [Finmap.lookup_insert_of_ne _ hxb] at hx
      exact h.by_hash_ne hx

theorem Held.createChild (h : Core s word) (hheld : s.Held []) (hp : s.nodes.lookup p = some pn)
    (hfree : pn.children.lookup bh = none) (heq : s.createChild now p bh pbh = (t, some s.nextId)) :
    t.Held [s.nextId] := by
  obtain ⟨_, _, hpar, hother⟩ := h.createChild hp hfree heq
  intro i n q hi hq hprune
  by_cases hin : i = s.nextId
  · rw [hin]
    exact mem_singleton_self _
  · by_cases hip : i = p
    · subst hip
      rw [hpar] at hi
      cases hi
      have hnone := children_empty_iff.mp hprune.2 bh
      rw [Finmap.lookup_insert] at hnone
      cases hnone
    · rw [hother i hin hip] at hi
      exact absurd (hheld hi hq hprune) (not_mem_nil)

end Create

/-! ## Section 4: Pruning -/

section Prune

variable {s : TreeState} {word : NodeId → List Int64}

theorem Core.detach (h : Core s word) {i p : NodeId} {n pn : Node} (hi : s.nodes.lookup i = some n)
    (hpar : n.parent = some p) (hp : s.nodes.lookup p = some pn) (hleaf : n.children.keys = ∅) :
    Core (s.detach i n p) word ∧ (s.detach i n p).nodes.lookup i = none ∧
      (s.detach i n p).nodes.lookup p =
        some { pn with children := pn.children.erase n.blockHash } ∧
      ∀ j, j ≠ i → j ≠ p → (s.detach i n p).nodes.lookup j = s.nodes.lookup j := by
  have hpi : p ≠ i := h.trie.parent_ne_self (heap_at hi) hpar
  have hnodes : (s.detach i n p).nodes = (s.nodes.insert p
      { pn with children := pn.children.erase n.blockHash }).erase i := by
    simp only [TreeState.detach, modifyNode_at hp, setNode]
  have hgone : (s.detach i n p).nodes.lookup i = none := by rw [hnodes, Finmap.lookup_erase]
  have hpar' : (s.detach i n p).nodes.lookup p =
      some { pn with children := pn.children.erase n.blockHash } := by
    rw [hnodes, Finmap.lookup_erase_ne hpi, Finmap.lookup_insert]
  have hother : ∀ j, j ≠ i → j ≠ p → (s.detach i n p).nodes.lookup j = s.nodes.lookup j := by
    intro j hji hjp
    rw [hnodes, Finmap.lookup_erase_ne hji, Finmap.lookup_insert_of_ne _ hjp]
  have hlabel : n.cell.label = [n.blockHash] := by simp [Node.cell, hpar]
  have hheap : (s.detach i n p).heap = PageTrie.removeLeaf hashIdx 1 s.heap p pn.cell i
      n.cell.label := by
    funext j
    by_cases hji : j = i
    · subst hji
      rw [heap_none hgone, PageTrie.removeLeaf_gone]
    · by_cases hjp : j = p
      · subst hjp
        rw [heap_at hpar', PageTrie.removeLeaf_parent hpi, lookup_children_erase, hlabel]
        rfl
      · rw [PageTrie.removeLeaf_other hji hjp, heap, heap, hother j hji hjp]
  obtain ⟨ids, hids, hmem⟩ := (h.by_hash n.blockHash i).mpr ⟨n, p, hi, hpar, rfl⟩
  have hby : (s.detach i n p).byHash = if ids.erase i = ∅ then s.byHash.erase n.blockHash
      else s.byHash.insert n.blockHash (ids.erase i) := by
    simp only [TreeState.detach, modifyNode_at hp, setNode, hids]
  refine ⟨⟨?_, ?_, ?_, ?_⟩, hgone, hpar', hother⟩
  · rw [hheap]
    exact h.trie.removeLeaf (heap_at hp) (heap_at hi) hpar (children_empty_iff.mp hleaf)
  · intro j m hj
    have hnext : (s.detach i n p).nextId = s.nextId := by
      simp only [TreeState.detach, modifyNode_at hp, setNode]
    rw [hnext]
    by_cases hji : j = i
    · subst hji
      rw [hgone] at hj
      cases hj
    · by_cases hjp : j = p
      · subst hjp
        exact h.fresh hp
      · rw [hother j hji hjp] at hj
        exact h.fresh hj
  · intro x j
    -- who is still listed under `x`
    have hlist : (∃ ids, (s.detach i n p).byHash.lookup x = some ids ∧ j ∈ ids) ↔
        j ≠ i ∧ ∃ ids, s.byHash.lookup x = some ids ∧ j ∈ ids := by
      rw [hby]
      by_cases hx : x = n.blockHash
      · subst hx
        simp only [hids]
        split
        · next hempty =>
          rw [Finmap.lookup_erase]
          simp only [reduceCtorEq, false_and, exists_false, false_iff, not_and]
          rintro hji ⟨ids', hids', hj⟩
          cases hids'
          have : j ∈ ids.erase i := Finset.mem_erase.mpr ⟨hji, hj⟩
          rw [hempty] at this
          exact Finset.notMem_empty j this
        · rw [Finmap.lookup_insert]
          simp
      · have hkeep : ∀ ids', s.byHash.lookup x = some ids' → j ∈ ids' → j ≠ i := by
          rintro ids' hids' hj rfl
          obtain ⟨m, _, hm, _, hhash⟩ := (h.by_hash x j).mp ⟨ids', hids', hj⟩
          rw [hi] at hm
          cases hm
          exact hx hhash.symm
        have hsame : (if ids.erase i = ∅ then s.byHash.erase n.blockHash
            else s.byHash.insert n.blockHash (ids.erase i)).lookup x = s.byHash.lookup x := by
          split
          · exact Finmap.lookup_erase_ne hx
          · exact Finmap.lookup_insert_of_ne _ hx
        simp only [hsame]
        constructor
        · rintro ⟨ids', hids', hj⟩
          exact ⟨hkeep ids' hids' hj, ids', hids', hj⟩
        · exact fun hj => hj.2
    rw [hlist, h.by_hash x j]
    by_cases hji : j = i
    · subst hji
      simp [hgone]
    · by_cases hjp : j = p
      · subst hjp
        rw [hpar', hp]
        simp [hji]
      · rw [hother j hji hjp]
        simp [hji]
  · intro x ids' hx
    rw [hby] at hx
    by_cases hxn : x = n.blockHash
    · subst hxn
      split at hx
      · rw [Finmap.lookup_erase] at hx
        cases hx
      · next hne =>
        rw [Finmap.lookup_insert] at hx
        cases hx
        exact hne
    · split at hx
      · rw [Finmap.lookup_erase_ne hxn] at hx
        exact h.by_hash_ne hx
      · rw [Finmap.lookup_insert_of_ne _ hxn] at hx
        exact h.by_hash_ne hx

theorem pruneCascade_stop {i : NodeId}
    (hno : ∀ n p, i ≠ rootId → s.nodes.lookup i = some n → n.parent = some p → ¬ n.Prunable) :
    s.pruneCascade i = s := by
  rw [pruneCascade]
  split
  · rfl
  · next hroot =>
    split
    · rfl
    · next n hn =>
      split
      · rfl
      · next p hp => rw [if_neg (hno n p hroot hn hp)]

theorem pruneCascade_go {i p : NodeId} {n pn : Node} (hroot : i ≠ rootId)
    (hn : s.nodes.lookup i = some n) (hp : n.parent = some p) (hprune : n.Prunable)
    (hpn : (s.detach i n p).nodes.lookup p = some pn) :
    s.pruneCascade i = if p ≠ rootId ∧ pn.Prunable then (s.detach i n p).pruneCascade p
      else s.detach i n p := by
  rw [pruneCascade, if_neg hroot]
  split
  · next hnone =>
    rw [hn] at hnone
    cases hnone
  · next n' hn' =>
    rw [hn] at hn'
    cases hn'
    simp only [hp, if_pos hprune, hpn]

/-- A cascade from a leaf that waits to be pruned leaves no new leaf without a worker. -/
theorem Core.pruneCascade (h : Core s word) {i : NodeId} {pending : List NodeId}
    (hheld : s.Held (i :: pending)) : Core (s.pruneCascade i) word ∧
      (s.pruneCascade i).Held pending ∧ (s.pruneCascade i).nodes.keys ⊆ s.nodes.keys ∧
      ∀ n, s.nodes.lookup i = some n → i ≠ rootId → n.Prunable →
        i ∉ (s.pruneCascade i).nodes.keys := by
  induction hcard : s.nodes.keys.card using Nat.strong_induction_on generalizing s i with
  | _ card ih =>
    by_cases hgo : i ≠ rootId ∧ ∃ n p, s.nodes.lookup i = some n ∧ n.parent = some p ∧ n.Prunable
    · obtain ⟨hroot, n, p, hn, hp, hprune⟩ := hgo
      obtain ⟨q, pn, hq, hpn, _⟩ := h.parent hn hroot
      rw [hp] at hq
      cases hq
      obtain ⟨ht, hgone, hpar, hother⟩ := h.detach hn hp hpn hprune.2
      have hkeys := keys_detach s i n p
      have hnot : i ∉ (s.detach i n p).nodes.keys := by
        rw [hkeys]
        exact Finset.notMem_erase i _
      have hsub : (s.detach i n p).nodes.keys ⊆ s.nodes.keys := by
        rw [hkeys]
        exact Finset.erase_subset i _
      -- only the parent may have become a leaf without a worker
      have hheld' : (s.detach i n p).Held (p :: pending) := by
        intro j m q hj hq hm
        by_cases hjp : j = p
        · rw [hjp]
          exact mem_cons_self ..
        · have hji : j ≠ i := by
            rintro rfl
            rw [hgone] at hj
            cases hj
          rw [hother j hji hjp] at hj
          exact mem_cons_of_mem _ (mem_of_ne_of_mem hji (hheld hj hq hm))
      rw [pruneCascade_go hroot hn hp hprune hpar]
      split
      · have hlt : (s.detach i n p).nodes.keys.card < card := by
          rw [← hcard, hkeys]
          apply Finset.card_erase_lt_of_mem
          exact Finmap.mem_keys.mpr (Finmap.mem_of_lookup_eq_some hn)
        obtain ⟨hcore, hheld'', hsub', _⟩ := ih _ hlt ht hheld' rfl
        exact ⟨hcore, hheld'', hsub'.trans hsub, fun _ _ _ _ hmem => hnot (hsub' hmem)⟩
      · next hstop =>
        refine ⟨ht, ?_, hsub, fun _ _ _ _ => hnot⟩
        intro j m q hj hq hm
        rcases mem_cons.mp (hheld' hj hq hm) with rfl | hmem
        · rw [hpar] at hj
          cases hj
          exact absurd ⟨ht.ne_root hpar hq, hm⟩ hstop
        · exact hmem
    · have hno : ∀ n p, i ≠ rootId → s.nodes.lookup i = some n → n.parent = some p →
          ¬ n.Prunable := fun n p hroot hn hp hprune => hgo ⟨hroot, n, p, hn, hp, hprune⟩
      rw [pruneCascade_stop hno]
      refine ⟨h, ?_, subset_rfl, ?_⟩
      · intro j n p hj hp hprune
        rcases mem_cons.mp (hheld hj hp hprune) with rfl | hmem
        · exact absurd hprune (hno n p (h.ne_root hj hp) hj hp)
        · exact hmem
      · intro n hn hroot hprune
        obtain ⟨p, _, hp, _⟩ := h.parent hn hroot
        exact absurd hprune (hno n p hroot hn hp)

end Prune

end TreeState

end Sglang.Router
