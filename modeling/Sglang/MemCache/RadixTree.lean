import Sglang.Lib.NodeSum
import Sglang.MemCache.RadixCache

/-!
# The Radix Tree of a Cache

What the tree of a `RadixCache` is, apart from times, priorities, hashes, sessions and events.

- `TreeView` forgets that metadata.
- `TreeInv` is the representation invariant: the view is a page trie, values have the length of
  their keys, both size counters are the sums they stand for, and the leaf list is exact.
- `updateLeafStatus` makes the leaf list right about one node and touches no other.
-/

namespace Sglang.MemCache

open List
open Lib
open Lib.PageTrie (Spells WellFormed PathUp labelOf insertAbove)

/-! ## Section 1: Views -/

/-- The tree of a cache without its metadata. -/
structure TreeView where
  core : Nat → Option NodeCore
  counter : Nat
  rootNode : Nat
  evictableSize : Int
  protectedSize : Int
  evictableLeaves : List Nat

def RadixCache.view (s : RadixCache) : TreeView where
  core := fun i => (s.nodes i).map TreeNode.toNodeCore
  counter := s.counter
  rootNode := s.rootNode
  evictableSize := s.evictableSize
  protectedSize := s.protectedSize
  evictableLeaves := s.evictableLeaves

/-- Contribution of a node to `evictable_size_`. -/
def evictableLen : Option NodeCore → Int
  | none => 0
  | some n => if n.lockRef = 0 then n.key.len else 0

/-- Contribution of a node to `protected_size_`. -/
def protectedLen : Option NodeCore → Int
  | none => 0
  | some n => if n.lockRef = 0 then 0 else n.key.len

namespace TreeView

def trie (v : TreeView) : PageTrie.Heap Letter RadixKey.ChildKey :=
  skeleton NodeCore.toTreeLinks v.core

def word (v : TreeView) (n : Nat) : List Letter :=
  PageTrie.spell v.rootNode v.trie v.counter (labelOf v.trie) n

def slots (v : TreeView) (n : Nat) : List Nat :=
  PageTrie.spell v.rootNode v.trie v.counter (valueOf NodeCore.toTreeLinks v.core) n

/-- The nodes from a node up to the root, which is left out. -/
def path (v : TreeView) (n : Nat) : List Nat :=
  PageTrie.climb v.rootNode (PageTrie.parentOf v.trie) (v.counter + 1) n

/-- A node that eviction may take: unlocked and childless. -/
def Evictable (v : TreeView) (i : Nat) : Prop :=
  ∃ n, v.core i = some n ∧ n.lockRef = 0 ∧ n.children.entries = []

/-- The leaf list is right about node `i`. -/
def LeafOk (v : TreeView) (i : Nat) : Prop := i ∈ v.evictableLeaves ↔ v.Evictable i

end TreeView

/-- The representation invariant of the tree. -/
structure TreeInv (ps : Nat) (v : TreeView) : Prop where
  trie : WellFormed RadixKey.ChildKey.ofLetters ps v.rootNode v.trie v.word
  fresh : ∀ {i n}, v.core i = some n → i < v.counter
  value_len : ∀ {i n}, v.core i = some n → n.value.length = n.key.len
  lock_nonneg : ∀ {i n}, v.core i = some n → 0 ≤ n.lockRef
  root_lock : ∀ {n}, v.core v.rootNode = some n → n.lockRef = 1
  evictable_eq : v.evictableSize = nodeSum evictableLen v.core v.counter
  protected_eq : v.protectedSize = nodeSum protectedLen v.core v.counter
  leaves_nodup : v.evictableLeaves.Nodup
  leaf_ok : ∀ i, v.LeafOk i

namespace TreeInv

variable {ps : Nat} {v : TreeView}

theorem dead_counter (inv : TreeInv ps v) : v.core v.counter = none := by
  cases h : v.core v.counter with
  | none => rfl
  | some n => exact absurd (inv.fresh h) (lt_irrefl _)

theorem bound (inv : TreeInv ps v) : ∀ i c, v.trie i = some c → i < v.counter := by
  intro i c h
  obtain ⟨n, hn, _⟩ := skeleton_some h
  exact inv.fresh hn

theorem trie_at {i : Nat} {n : NodeCore} (h : v.core i = some n) :
    v.trie i = some n.toTreeLinks.cell := skeleton_at h

section

variable (inv : TreeInv ps v)
include inv

theorem word_eq {w : Nat → List Letter}
    (sp : Spells v.rootNode v.trie (labelOf v.trie) w) {i : Nat} {n : NodeCore}
    (hi : v.core i = some n) : v.word i = w i :=
  inv.trie.spells_unique inv.trie.spells sp (trie_at hi)

theorem spells_slots :
    Spells v.rootNode v.trie (valueOf NodeCore.toTreeLinks v.core) v.slots :=
  inv.trie.spells_spell _ inv.bound _

theorem slots_eq {w : Nat → List Nat}
    (sp : Spells v.rootNode v.trie (valueOf NodeCore.toTreeLinks v.core) w) {i : Nat}
    {n : NodeCore} (hi : v.core i = some n) : v.slots i = w i :=
  inv.trie.spells_unique inv.spells_slots sp (trie_at hi)

theorem path_eq {i : Nat} {l : List Nat}
    (path : PathUp v.trie v.rootNode i l) : v.path i = l := by
  have := inv.trie.path_length_le path inv.bound
  exact path.climb_eq (by omega)

theorem path_up {i : Nat} {n : NodeCore} (hi : v.core i = some n) :
    PathUp v.trie v.rootNode i (v.path i) := by
  obtain ⟨l, path⟩ := inv.trie.exists_path (trie_at hi)
  rw [inv.path_eq path]
  exact path

theorem parent_live {i p : Nat} {n : NodeCore} (hi : v.core i = some n)
    (hp : n.parent = some p) : ∃ pn, v.core p = some pn := by
  obtain ⟨q, qc, hq, hqc⟩ := inv.trie.parent_cell (trie_at hi)
    (inv.trie.ne_root_of_parent (trie_at hi) hp)
  cases hp.symm.trans hq
  obtain ⟨pn, hpn, _⟩ := skeleton_some hqc
  exact ⟨pn, hpn⟩

theorem exists_parent {i : Nat} {n : NodeCore} (hi : v.core i = some n)
    (hroot : i ≠ v.rootNode) : ∃ p pn, n.parent = some p ∧ v.core p = some pn := by
  obtain ⟨q, qc, hq, hqc⟩ := inv.trie.parent_cell (trie_at hi) hroot
  obtain ⟨pn, hpn, _⟩ := skeleton_some hqc
  exact ⟨q, pn, hq, hpn⟩

theorem ne_root {i p : Nat} {n : NodeCore} (hi : v.core i = some n)
    (hp : n.parent = some p) : i ≠ v.rootNode := inv.trie.ne_root_of_parent (trie_at hi) hp

theorem root_live :
    ∃ n, v.core v.rootNode = some n ∧ n.parent = none ∧ n.key.len = 0 := by
  obtain ⟨c, hc, hpar, hlab⟩ := inv.trie.root_cell
  obtain ⟨n, hn, rfl⟩ := skeleton_some hc
  exact ⟨n, hn, hpar, (RadixKey.letters_eq_nil_iff _).mp hlab⟩

theorem page_le_len {i p : Nat} {n : NodeCore} (hi : v.core i = some n)
    (hp : n.parent = some p) : ps ≤ n.key.len := by
  have := inv.trie.page_le_label (trie_at hi) (inv.ne_root hi hp)
  simpa [TreeLinks.cell] using this

theorem lookup_childKey {i p : Nat} {n pn : NodeCore}
    (hi : v.core i = some n) (hp : n.parent = some p) (hpn : v.core p = some pn) :
    pn.children.lookup (n.key.childKey ps) = some i := by
  rw [childKey_eq_ofLetters inv.trie.page_pos (inv.page_le_len hi hp)]
  exact inv.trie.filed_at (trie_at hi) hp (trie_at hpn)

theorem of_lookup {i p : Nat} {pn : NodeCore} {k : RadixKey.ChildKey}
    (hpn : v.core p = some pn) (hk : pn.children.lookup k = some i) :
    ∃ n, v.core i = some n ∧ n.parent = some p ∧ n.key.childKey ps = k := by
  obtain ⟨c, hc, hpar, hidx⟩ := inv.trie.child_cell (trie_at hpn) hk
  obtain ⟨n, hn, rfl⟩ := skeleton_some hc
  refine ⟨n, hn, hpar, ?_⟩
  rw [childKey_eq_ofLetters inv.trie.page_pos (inv.page_le_len hn hpar)]
  exact hidx

theorem word_child {i p : Nat} {n : NodeCore} (hi : v.core i = some n)
    (hp : n.parent = some p) : v.word i = v.word p ++ n.key.letters :=
  inv.trie.word_child (trie_at hi) hp

theorem slots_child {i p : Nat} {n : NodeCore} (hi : v.core i = some n)
    (hp : n.parent = some p) : v.slots i = v.slots p ++ n.value := by
  rw [inv.spells_slots.at_child (trie_at hi) hp, valueOf_at hi]

theorem slots_root : v.slots v.rootNode = [] := inv.spells_slots.at_root

theorem slots_length {i : Nat} {n : NodeCore} (hi : v.core i = some n) :
    (v.slots i).length = (v.word i).length := by
  refine inv.trie.induction_on (P := fun i => (v.slots i).length = (v.word i).length) ?_ ?_ i _
    (trie_at hi)
  · simp [inv.slots_root, inv.trie.word_root]
  · intro i c p hc hp _ ih
    obtain ⟨n, hn, rfl⟩ := skeleton_some hc
    rw [inv.slots_child hn hp, inv.word_child hn hp, length_append, length_append, ih,
      inv.value_len hn, RadixKey.letters_length]

theorem path_child {i p : Nat} {n : NodeCore} (hi : v.core i = some n)
    (hp : n.parent = some p) : v.path i = i :: v.path p := by
  obtain ⟨pn, hpn⟩ := inv.parent_live hi hp
  exact inv.path_eq (.cons (trie_at hi) (inv.ne_root hi hp) hp (inv.path_up hpn))

theorem ne_root_of_unlocked {i : Nat} {n : NodeCore}
    (hi : v.core i = some n) (hlock : n.lockRef = 0) : i ≠ v.rootNode := by
  rintro rfl
  have := inv.root_lock hi
  omega

end

end TreeInv

/-! ## Section 2: Leaf status -/

namespace TreeView

/-- `_update_leaf_status` on views. -/
def updateLeafStatus (v : TreeView) (node : Nat) : TreeView :=
  match v.core node with
  | none => v
  | some nd =>
    if nd.lockRef > 0 then { v with evictableLeaves := v.evictableLeaves.erase node }
    else if nd.children.entries ≠ [] then
      { v with evictableLeaves := v.evictableLeaves.erase node }
    else if node ∈ v.evictableLeaves then v
    else { v with evictableLeaves := node :: v.evictableLeaves }

section

variable (v : TreeView) (node : Nat)
include v node

theorem updateLeafStatus_eq :
    ∃ l, v.updateLeafStatus node = { v with evictableLeaves := l } := by
  unfold updateLeafStatus
  split
  · exact ⟨v.evictableLeaves, rfl⟩
  · split
    · exact ⟨_, rfl⟩
    · split
      · exact ⟨_, rfl⟩
      · split
        · exact ⟨v.evictableLeaves, rfl⟩
        · exact ⟨_, rfl⟩

@[simp] theorem updateLeafStatus_core :
    (v.updateLeafStatus node).core = v.core := by
  obtain ⟨l, hl⟩ := v.updateLeafStatus_eq node
  rw [hl]

@[simp] theorem updateLeafStatus_counter :
    (v.updateLeafStatus node).counter = v.counter := by
  obtain ⟨l, hl⟩ := v.updateLeafStatus_eq node
  rw [hl]

@[simp] theorem updateLeafStatus_rootNode :
    (v.updateLeafStatus node).rootNode = v.rootNode := by
  obtain ⟨l, hl⟩ := v.updateLeafStatus_eq node
  rw [hl]

@[simp] theorem updateLeafStatus_evictableSize :
    (v.updateLeafStatus node).evictableSize = v.evictableSize := by
  obtain ⟨l, hl⟩ := v.updateLeafStatus_eq node
  rw [hl]

@[simp] theorem updateLeafStatus_protectedSize :
    (v.updateLeafStatus node).protectedSize = v.protectedSize := by
  obtain ⟨l, hl⟩ := v.updateLeafStatus_eq node
  rw [hl]

end

theorem mem_updateLeafStatus_of_ne (v : TreeView) {node i : Nat} (h : i ≠ node) :
    i ∈ (v.updateLeafStatus node).evictableLeaves ↔ i ∈ v.evictableLeaves := by
  unfold updateLeafStatus
  split
  · rfl
  · split
    · exact mem_erase_of_ne h
    · split
      · exact mem_erase_of_ne h
      · split
        · rfl
        · simp [h]

theorem nodup_updateLeafStatus (v : TreeView) (node : Nat) (h : v.evictableLeaves.Nodup) :
    (v.updateLeafStatus node).evictableLeaves.Nodup := by
  unfold updateLeafStatus
  split
  · exact h
  · split
    · exact h.erase _
    · split
      · exact h.erase _
      · split
        · exact h
        · next hmem => exact nodup_cons.mpr ⟨hmem, h⟩

/-- `_update_leaf_status` makes the leaf list right about `node`. -/
theorem leafOk_updateLeafStatus (v : TreeView) {node : Nat} (nd : NodeCore)
    (hnd : v.core node = some nd) (hlock : 0 ≤ nd.lockRef) (h : v.evictableLeaves.Nodup) :
    (v.updateLeafStatus node).LeafOk node := by
  have hev : (v.updateLeafStatus node).Evictable node ↔
      nd.lockRef = 0 ∧ nd.children.entries = [] := by
    constructor
    · rintro ⟨n, hn, hrest⟩
      rw [updateLeafStatus_core, hnd] at hn
      cases hn
      exact hrest
    · intro hrest
      exact ⟨nd, by rw [updateLeafStatus_core, hnd], hrest⟩
  unfold LeafOk
  rw [hev]
  unfold updateLeafStatus
  rw [hnd]
  dsimp only
  split
  · next hpos => simp [h.not_mem_erase]; omega
  · next hpos =>
    have hzero : nd.lockRef = 0 := by omega
    split
    · next hch => simp [h.not_mem_erase, hch]
    · next hch =>
      have hch : nd.children.entries = [] := not_not.mp hch
      split
      · next hmem => simp [hmem, hzero, hch]
      · simp [hzero, hch]

theorem leafOk_updateLeafStatus_of_ne (v : TreeView) {node i : Nat} (hne : i ≠ node)
    (h : v.LeafOk i) : (v.updateLeafStatus node).LeafOk i := by
  unfold LeafOk Evictable at *
  rw [mem_updateLeafStatus_of_ne v hne, updateLeafStatus_core]
  exact h

theorem LeafOk.congr {v v' : TreeView} {i : Nat}
    (hmem : i ∈ v'.evictableLeaves ↔ i ∈ v.evictableLeaves)
    (hev : v'.Evictable i ↔ v.Evictable i) (h : v.LeafOk i) : v'.LeafOk i := by
  unfold LeafOk at *
  rw [hmem, hev]
  exact h

theorem evictable_congr {v v' : TreeView} {i : Nat} (h : v'.core i = v.core i) :
    v'.Evictable i ↔ v.Evictable i := by
  unfold Evictable
  rw [h]

end TreeView

end Sglang.MemCache
