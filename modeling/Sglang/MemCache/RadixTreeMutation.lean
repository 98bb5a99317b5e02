import Sglang.MemCache.RadixTree

/-!
# Mutations of the Radix Tree

Every operation of a `RadixCache` acts on its view through four mutations: `splitAt`
(`_split_node`), `addLeaf` (the tail of `_insert_helper`), `removeLeaf` (`_delete_leaf`) and
`relock` (one visit of `inc_lock_ref` or `dec_lock_ref`). Each keeps `TreeInv` and changes words,
slots and paths in one known way.
-/

namespace Sglang.MemCache

open List Option Function
open Lib
open Lib.PageTrie (Spells WellFormed PathUp labelOf insertAbove)

/-! ## Section 1: Cutting a node -/

def NodeCore.front (ps : Nat) (c : NodeCore) (p child k : Nat) : NodeCore where
  parent := some p
  children := AList.singleton ((c.key.dropUnits k).childKey ps) child
  key := c.key.takeUnits k
  value := c.value.take k
  lockRef := c.lockRef

def NodeCore.back (c : NodeCore) (x k : Nat) : NodeCore :=
  { c with parent := some x, key := c.key.dropUnits k, value := c.value.drop k }

def NodeCore.link (ps : Nat) (pn : NodeCore) (key : RadixKey) (x : Nat) : NodeCore :=
  { pn with children := pn.children.insert (key.childKey ps) x }

def NodeCore.unlink (ps : Nat) (pn : NodeCore) (key : RadixKey) : NodeCore :=
  { pn with children := pn.children.erase (key.childKey ps) }

namespace NodeCore

variable {ps : Nat} {c pn : NodeCore} {key : RadixKey}

theorem front_cell (p child : Nat) (hps : 0 < ps) {k : Nat} (hlen : ps ≤ (c.key.dropUnits k).len) :
    (c.front ps p child k).cell =
      PageTrie.frontCell RadixKey.ChildKey.ofLetters ps p child c.key.letters k := by
  simp only [TreeLinks.cell, front, PageTrie.frontCell, RadixKey.letters_takeUnits,
    lookup_singleton_eq_update, childKey_eq_ofLetters hps hlen, RadixKey.letters_dropUnits]

theorem back_cell {x k : Nat} : (c.back x k).cell = PageTrie.backCell x c.cell k := by
  simp only [TreeLinks.cell, back, PageTrie.backCell, RadixKey.letters_dropUnits]

theorem link_cell (pn : NodeCore) (x : Nat) (hps : 0 < ps) (hlen : ps ≤ key.len) :
    (pn.link ps key x).cell =
      pn.cell.setChild (RadixKey.ChildKey.ofLetters (key.letters.take ps)) (some x) := by
  simp only [TreeLinks.cell, link, PageTrie.Cell.setChild, lookup_insert_eq_update,
    childKey_eq_ofLetters hps hlen]

theorem unlink_cell (pn : NodeCore) (hps : 0 < ps) (hlen : ps ≤ key.len) :
    (pn.unlink ps key).cell =
      pn.cell.setChild (RadixKey.ChildKey.ofLetters (key.letters.take ps)) none := by
  simp only [TreeLinks.cell, unlink, PageTrie.Cell.setChild, lookup_erase_eq_update,
    childKey_eq_ofLetters hps hlen]

end NodeCore

namespace TreeView

/-- `_split_node` on views. -/
def splitAt (ps : Nat) (v : TreeView) (child : Nat) (c : NodeCore) (p : Nat) (pn : NodeCore)
    (k : Nat) : TreeView :=
  { v with
    counter := v.counter + 1
    core := update (update
      (update v.core v.counter (some (c.front ps p child k)))
      child (some (c.back v.counter k))) p (some (pn.link ps c.key v.counter)) }

end TreeView

namespace TreeInv

variable {ps : Nat} {v : TreeView}

section Split

variable {child p k : Nat} {c pn : NodeCore}

/-- What `_split_node` asks for: a linked child and a page boundary strictly inside its key. -/
structure Cut (ps : Nat) (v : TreeView) (child : Nat) (c : NodeCore) (p : Nat) (pn : NodeCore)
    (k : Nat) : Prop where
  child_at : v.core child = some c
  parent_eq : c.parent = some p
  parent_at : v.core p = some pn
  pos : 0 < k
  dvd : ps ∣ k
  lt : k < c.key.len

variable (inv : TreeInv ps v) (cut : Cut ps v child c p pn k)

include inv cut

theorem split_ne : v.counter ≠ child ∧ v.counter ≠ p ∧ child ≠ p := by
  have h₁ := inv.fresh cut.child_at
  have h₂ := inv.fresh cut.parent_at
  have h₃ := inv.trie.parent_ne_self (trie_at cut.child_at) cut.parent_eq
  omega

theorem split_drop_len : ps ≤ (c.key.dropUnits k).len := by
  have hd : ps ∣ c.key.len := by
    have := inv.trie.label_dvd (trie_at cut.child_at)
    simpa [TreeLinks.cell] using this
  rw [RadixKey.len_dropUnits]
  exact Nat.le_of_dvd (by have := cut.lt; omega) (Nat.dvd_sub hd cut.dvd)

theorem trie_splitAt :
    (v.splitAt ps child c p pn k).trie =
      PageTrie.split RadixKey.ChildKey.ofLetters ps v.trie p pn.toTreeLinks.cell child
        c.toTreeLinks.cell v.counter k := by
  have hfront := NodeCore.front_cell p child inv.trie.page_pos (inv.split_drop_len cut)
  have hlink := NodeCore.link_cell pn v.counter inv.trie.page_pos
    (inv.page_le_len cut.child_at cut.parent_eq)
  simp only [TreeView.trie, TreeView.splitAt, skeleton_update, PageTrie.split, map_some,
    hfront, hlink, NodeCore.back_cell]
  rfl

theorem wellFormed_splitAt :
    WellFormed RadixKey.ChildKey.ofLetters ps v.rootNode (v.splitAt ps child c p pn k).trie
      (update v.word v.counter (v.word p ++ c.key.letters.take k)) := by
  rw [inv.trie_splitAt cut]
  refine inv.trie.split (trie_at cut.parent_at) (trie_at cut.child_at) cut.parent_eq
    (skeleton_none inv.dead_counter) cut.pos cut.dvd ?_
  simpa [TreeLinks.cell] using cut.lt

theorem spells_slots_splitAt :
    Spells v.rootNode (v.splitAt ps child c p pn k).trie
      (valueOf NodeCore.toTreeLinks (v.splitAt ps child c p pn k).core)
      (update v.slots v.counter (v.slots p ++ c.value.take k)) := by
  obtain ⟨hxc, hxp, hcp⟩ := inv.split_ne cut
  have hfront : valueOf NodeCore.toTreeLinks (v.splitAt ps child c p pn k).core v.counter =
      c.value.take k := by
    simp [valueOf_update, TreeView.splitAt, hxc, hxp, NodeCore.front]
  have hback : valueOf NodeCore.toTreeLinks (v.splitAt ps child c p pn k).core child =
      c.value.drop k := by
    simp [valueOf_update, TreeView.splitAt, hcp, NodeCore.back]
  rw [inv.trie_splitAt cut, ← hfront]
  refine inv.spells_slots.split _ inv.trie (trie_at cut.parent_at) (trie_at cut.child_at)
    cut.parent_eq (skeleton_none inv.dead_counter) ?_ ?_
  · intro i hix hic
    by_cases hip : i = p
    · subst hip
      simp [valueOf_update, TreeView.splitAt, NodeCore.link, valueOf_at cut.parent_at]
    · simp [valueOf_update, TreeView.splitAt, hix, hic, hip]
  · rw [hfront, hback, valueOf_at cut.child_at, take_append_drop]

variable {i : Nat} {n : NodeCore}

theorem splitAt_cases (hi : (v.splitAt ps child c p pn k).core i = some n) :
    (i = v.counter ∧ n = c.front ps p child k) ∨ (i = child ∧ n = c.back v.counter k) ∨
      (i = p ∧ n = pn.link ps c.key v.counter) ∨
      (i ≠ v.counter ∧ i ≠ child ∧ i ≠ p ∧ v.core i = some n) := by
  obtain ⟨hxc, hxp, hcp⟩ := inv.split_ne cut
  simp only [TreeView.splitAt] at hi
  by_cases hip : i = p
  · subst hip
    rw [update_self] at hi
    cases hi
    exact .inr (.inr (.inl ⟨rfl, rfl⟩))
  rw [update_of_ne hip] at hi
  by_cases hic : i = child
  · subst hic
    rw [update_self] at hi
    cases hi
    exact .inr (.inl ⟨rfl, rfl⟩)
  rw [update_of_ne hic] at hi
  by_cases hix : i = v.counter
  · subst hix
    rw [update_self] at hi
    cases hi
    exact .inl ⟨rfl, rfl⟩
  · rw [update_of_ne hix] at hi
    exact .inr (.inr (.inr ⟨hix, hic, hip, hi⟩))

theorem nodeSum_splitAt {M : Type*} [AddCancelCommMonoid M] {f : Option NodeCore → M}
    (hf : f none = 0)
    (hlink : f (some (pn.link ps c.key v.counter)) = f (some pn))
    (hcut : f (some (c.front ps p child k)) + f (some (c.back v.counter k)) = f (some c)) :
    nodeSum f (v.splitAt ps child c p pn k).core (v.counter + 1) = nodeSum f v.core v.counter := by
  obtain ⟨hxc, hxp, hcp⟩ := inv.split_ne cut
  have hc := inv.fresh cut.child_at
  have hp := inv.fresh cut.parent_at
  have h₁ := nodeSum_update f v.core (Nat.lt_succ_self v.counter)
    (some (c.front ps p child k))
  have h₂ := nodeSum_update f
    (update v.core v.counter (some (c.front ps p child k)))
    (Nat.lt_succ_of_lt hc) (some (c.back v.counter k))
  have h₃ := nodeSum_update f
    (update (update v.core v.counter (some (c.front ps p child k))) child
      (some (c.back v.counter k)))
    (Nat.lt_succ_of_lt hp) (some (pn.link ps c.key v.counter))
  rw [update_of_ne hxc.symm, cut.child_at] at h₂
  rw [update_of_ne hcp.symm, update_of_ne hxp.symm, cut.parent_at] at h₃
  rw [nodeSum_succ hf inv.dead_counter, inv.dead_counter, hf] at h₁
  rw [← hcut] at h₂
  rw [hlink] at h₃
  rw [add_zero] at h₁
  rw [h₁, add_assoc] at h₂
  exact (add_right_cancel h₃).trans (add_right_cancel h₂)

theorem splitAt : TreeInv ps (v.splitAt ps child c p pn k) := by
  obtain ⟨hxc, hxp, hcp⟩ := inv.split_ne cut
  have hbound : ∀ {i n}, (v.splitAt ps child c p pn k).core i = some n → i < v.counter + 1 := by
    intro i n hi
    have hc := inv.fresh cut.child_at
    have hp := inv.fresh cut.parent_at
    rcases inv.splitAt_cases cut hi with ⟨rfl, _⟩ | ⟨rfl, _⟩ | ⟨rfl, _⟩ | ⟨_, _, _, hi⟩
    · omega
    · omega
    · omega
    · have := inv.fresh hi
      omega
  have hlen : ((c.key.takeUnits k).len : Int) + (c.key.dropUnits k).len = c.key.len := by
    have := cut.lt
    rw [RadixKey.len_takeUnits, RadixKey.len_dropUnits]
    omega
  have hwf := inv.wellFormed_splitAt cut
  refine
    { trie := hwf.of_spells (hwf.spells_spell _ (fun i c hi => ?_) _)
      fresh := hbound
      value_len := ?_
      lock_nonneg := ?_
      root_lock := ?_
      evictable_eq := ?_
      protected_eq := ?_
      leaves_nodup := inv.leaves_nodup
      leaf_ok := ?_ }
  · obtain ⟨n, hn, _⟩ := skeleton_some hi
    exact hbound hn
  · intro i n hi
    have hcv := inv.value_len cut.child_at
    rcases inv.splitAt_cases cut hi with ⟨_, rfl⟩ | ⟨_, rfl⟩ | ⟨_, rfl⟩ | ⟨_, _, _, hi⟩
    · simp [NodeCore.front, RadixKey.len_takeUnits, hcv]
    · simp [NodeCore.back, RadixKey.len_dropUnits, hcv]
    · exact inv.value_len (n := pn) cut.parent_at
    · exact inv.value_len hi
  · intro i n hi
    rcases inv.splitAt_cases cut hi with ⟨_, rfl⟩ | ⟨_, rfl⟩ | ⟨_, rfl⟩ | ⟨_, _, _, hi⟩
    · exact inv.lock_nonneg (n := c) cut.child_at
    · exact inv.lock_nonneg (n := c) cut.child_at
    · exact inv.lock_nonneg (n := pn) cut.parent_at
    · exact inv.lock_nonneg hi
  · intro n hi
    obtain ⟨rn, hrn, _⟩ := inv.root_live
    rcases inv.splitAt_cases cut hi with ⟨hx, _⟩ | ⟨hx, _⟩ | ⟨hx, rfl⟩ | ⟨_, _, _, hi⟩
    · have := inv.fresh hrn
      simp only [TreeView.splitAt] at hx
      omega
    · exact absurd hx.symm (inv.ne_root cut.child_at cut.parent_eq)
    · refine inv.root_lock (n := pn) ?_
      have hx : v.rootNode = p := hx
      rw [hx]
      exact cut.parent_at
    · exact inv.root_lock hi
  · refine inv.evictable_eq.trans (inv.nodeSum_splitAt cut rfl rfl ?_).symm
    simp only [evictableLen, NodeCore.front, NodeCore.back]
    split <;> simp_all
  · refine inv.protected_eq.trans (inv.nodeSum_splitAt cut rfl rfl ?_).symm
    simp only [protectedLen, NodeCore.front, NodeCore.back]
    split <;> simp_all
  · intro i
    refine TreeView.LeafOk.congr (v := v) Iff.rfl ?_ (inv.leaf_ok i)
    have hchild : pn.children.lookup (c.key.childKey ps) = some child :=
      inv.lookup_childKey cut.child_at cut.parent_eq cut.parent_at
    -- neither the upper half nor the parent is childless, before or after
    constructor
    · rintro ⟨n, hn, hlock, hempty⟩
      rcases inv.splitAt_cases cut hn with ⟨_, rfl⟩ | ⟨rfl, rfl⟩ | ⟨_, rfl⟩ | ⟨_, _, _, hn⟩
      · exact absurd hempty (cons_ne_nil _ _)
      · exact ⟨c, cut.child_at, hlock, hempty⟩
      · have := (entries_eq_nil_iff _).mp hempty (c.key.childKey ps)
        simp [NodeCore.link] at this
      · exact ⟨n, hn, hlock, hempty⟩
    · rintro ⟨n, hn, hlock, hempty⟩
      have hix := (inv.fresh hn).ne
      by_cases hic : i = child
      · subst hic
        rw [cut.child_at] at hn
        cases hn
        exact ⟨c.back v.counter k, by simp [TreeView.splitAt, hcp], hlock, hempty⟩
      by_cases hip : i = p
      · subst hip
        rw [cut.parent_at] at hn
        cases hn
        have := (entries_eq_nil_iff _).mp hempty (c.key.childKey ps)
        simp [hchild] at this
      · exact ⟨n, by simp [TreeView.splitAt, hix, hic, hip, hn], hlock, hempty⟩

theorem splitAt_live (hi : v.core i = some n) :
    ∃ n', (v.splitAt ps child c p pn k).core i = some n' ∧ n'.lockRef = n.lockRef := by
  obtain ⟨hxc, hxp, hcp⟩ := inv.split_ne cut
  have hix := (inv.fresh hi).ne
  by_cases hip : i = p
  · subst hip
    rw [cut.parent_at] at hi
    cases hi
    exact ⟨pn.link ps c.key v.counter, by simp [TreeView.splitAt], rfl⟩
  by_cases hic : i = child
  · subst hic
    rw [cut.child_at] at hi
    cases hi
    exact ⟨c.back v.counter k, by simp [TreeView.splitAt, hip], rfl⟩
  · exact ⟨n, by simp [TreeView.splitAt, hix, hic, hip, hi], rfl⟩

theorem splitAt_front :
    (v.splitAt ps child c p pn k).core v.counter = some (c.front ps p child k) := by
  obtain ⟨hxc, hxp, hcp⟩ := inv.split_ne cut
  simp [TreeView.splitAt, hxc, hxp]

theorem word_splitAt (hi : v.core i = some n) :
    (v.splitAt ps child c p pn k).word i = v.word i := by
  obtain ⟨n', hn', _⟩ := inv.splitAt_live cut hi
  rw [(inv.splitAt cut).word_eq (inv.wellFormed_splitAt cut).spells hn',
    update_of_ne (inv.fresh hi).ne]

theorem word_splitAt_front :
    (v.splitAt ps child c p pn k).word v.counter = v.word p ++ c.key.letters.take k := by
  rw [(inv.splitAt cut).word_eq (inv.wellFormed_splitAt cut).spells (inv.splitAt_front cut),
    update_self]

theorem slots_splitAt (hi : v.core i = some n) :
    (v.splitAt ps child c p pn k).slots i = v.slots i := by
  obtain ⟨n', hn', _⟩ := inv.splitAt_live cut hi
  rw [(inv.splitAt cut).slots_eq (inv.spells_slots_splitAt cut) hn',
    update_of_ne (inv.fresh hi).ne]

theorem slots_splitAt_front :
    (v.splitAt ps child c p pn k).slots v.counter = v.slots p ++ c.value.take k := by
  rw [(inv.splitAt cut).slots_eq (inv.spells_slots_splitAt cut) (inv.splitAt_front cut),
    update_self]

theorem path_splitAt (hi : v.core i = some n) :
    (v.splitAt ps child c p pn k).path i = insertAbove child v.counter (v.path i) := by
  refine (inv.splitAt cut).path_eq ?_
  rw [inv.trie_splitAt cut]
  exact (inv.path_up hi).split inv.trie (trie_at cut.parent_at) (trie_at cut.child_at)
    cut.parent_eq (skeleton_none inv.dead_counter)

end Split

end TreeInv

/-! ## Section 2: Hanging a leaf -/

/-- A fresh node without children or locks. -/
def NodeCore.leaf (node : Nat) (key : RadixKey) (value : List Nat) : NodeCore where
  parent := some node
  children := ∅
  key := key
  value := value

/-- The tail of `_insert_helper` on views. -/
def TreeView.addLeaf (ps : Nat) (v : TreeView) (node : Nat) (nd : NodeCore) (key : RadixKey)
    (value : List Nat) : TreeView :=
  (TreeView.updateLeafStatus { v with
    counter := v.counter + 1
    core := update (update v.core v.counter (some (.leaf node key value))) node
      (some (nd.link ps key v.counter))
    evictableSize := v.evictableSize + key.len } node).updateLeafStatus v.counter

namespace TreeInv

variable {ps : Nat} {v : TreeView}

section AddLeaf

variable {node : Nat} {nd : NodeCore} {key : RadixKey} {value : List Nat}

/-- What a new leaf asks for: whole pages, one slot a unit, and no child on its first page. -/
structure Hang (ps : Nat) (v : TreeView) (node : Nat) (nd : NodeCore) (key : RadixKey)
    (value : List Nat) : Prop where
  node_at : v.core node = some nd
  pos : 0 < key.len
  dvd : ps ∣ key.len
  value_len : value.length = key.len
  free : nd.children.lookup (key.childKey ps) = none

theorem Hang.page_le (hang : Hang ps v node nd key value) : ps ≤ key.len :=
  Nat.le_of_dvd hang.pos hang.dvd

variable (inv : TreeInv ps v) (hang : Hang ps v node nd key value)

theorem addLeaf_core :
    (v.addLeaf ps node nd key value).core =
      update (update v.core v.counter (some (.leaf node key value))) node
        (some (nd.link ps key v.counter)) := by
  simp [TreeView.addLeaf]

@[simp] theorem addLeaf_counter :
    (v.addLeaf ps node nd key value).counter = v.counter + 1 := by
  simp [TreeView.addLeaf]

@[simp] theorem addLeaf_rootNode : (v.addLeaf ps node nd key value).rootNode = v.rootNode := by
  simp [TreeView.addLeaf]

variable {i : Nat} {n : NodeCore}

theorem addLeaf_cases (hi : (v.addLeaf ps node nd key value).core i = some n) :
    (i = v.counter ∧ n = .leaf node key value) ∨ (i = node ∧ n = nd.link ps key v.counter) ∨
      (i ≠ v.counter ∧ i ≠ node ∧ v.core i = some n) := by
  rw [addLeaf_core] at hi
  by_cases hin : i = node
  · subst hin
    rw [update_self] at hi
    cases hi
    exact .inr (.inl ⟨rfl, rfl⟩)
  rw [update_of_ne hin] at hi
  by_cases hix : i = v.counter
  · subst hix
    rw [update_self] at hi
    cases hi
    exact .inl ⟨rfl, rfl⟩
  · rw [update_of_ne hix] at hi
    exact .inr (.inr ⟨hix, hin, hi⟩)

include inv hang

theorem hang_ne : node ≠ v.counter := (inv.fresh hang.node_at).ne

theorem trie_addLeaf :
    (v.addLeaf ps node nd key value).trie =
      PageTrie.addLeaf RadixKey.ChildKey.ofLetters ps v.trie node nd.toTreeLinks.cell v.counter
        key.letters := by
  have hlink := NodeCore.link_cell nd v.counter inv.trie.page_pos hang.page_le
  simp only [TreeView.trie, addLeaf_core, skeleton_update, PageTrie.addLeaf, map_some,
    hlink]
  rfl

theorem wellFormed_addLeaf :
    WellFormed RadixKey.ChildKey.ofLetters ps v.rootNode (v.addLeaf ps node nd key value).trie
      (update v.word v.counter (v.word node ++ key.letters)) := by
  rw [inv.trie_addLeaf hang]
  have hpos := hang.pos
  refine inv.trie.addLeaf (trie_at hang.node_at) (skeleton_none inv.dead_counter) ?_ ?_ ?_
  · intro hnil
    rw [RadixKey.letters_eq_nil_iff] at hnil
    omega
  · simpa using hang.dvd
  · rw [← childKey_eq_ofLetters inv.trie.page_pos hang.page_le]
    exact hang.free

theorem spells_slots_addLeaf :
    Spells v.rootNode (v.addLeaf ps node nd key value).trie
      (valueOf NodeCore.toTreeLinks (v.addLeaf ps node nd key value).core)
      (update v.slots v.counter (v.slots node ++ value)) := by
  have hne := inv.hang_ne hang
  have hleaf : valueOf NodeCore.toTreeLinks (v.addLeaf ps node nd key value).core v.counter =
      value := by
    simp [valueOf_update, addLeaf_core, hne.symm, NodeCore.leaf]
  have h := inv.spells_slots.addLeaf (l := key.letters)
    (valueOf NodeCore.toTreeLinks (v.addLeaf ps node nd key value).core) inv.trie
    (trie_at hang.node_at) (skeleton_none inv.dead_counter) (by
      intro i hix
      by_cases hin : i = node
      · subst hin
        simp [valueOf_update, addLeaf_core, NodeCore.link, valueOf_at hang.node_at]
      · simp [valueOf_update, addLeaf_core, hix, hin])
  rw [inv.trie_addLeaf hang]
  rwa [hleaf] at h

theorem addLeaf_new :
    (v.addLeaf ps node nd key value).core v.counter = some (.leaf node key value) := by
  simp [addLeaf_core, (inv.hang_ne hang).symm]

theorem addLeaf_live (hi : v.core i = some n) :
    ∃ n', (v.addLeaf ps node nd key value).core i = some n' ∧ n'.lockRef = n.lockRef := by
  have hix := (inv.fresh hi).ne
  by_cases hin : i = node
  · subst hin
    rw [hang.node_at] at hi
    cases hi
    exact ⟨nd.link ps key v.counter, by simp [addLeaf_core], rfl⟩
  · exact ⟨n, by simp [addLeaf_core, hix, hin, hi], rfl⟩

theorem nodeSum_addLeaf {M : Type*} [AddCancelCommMonoid M] {f : Option NodeCore → M}
    (hf : f none = 0)
    (hlink : f (some (nd.link ps key v.counter)) = f (some nd)) :
    nodeSum f (v.addLeaf ps node nd key value).core (v.counter + 1) =
      nodeSum f v.core v.counter + f (some (.leaf node key value)) := by
  have h₁ := nodeSum_update f v.core (Nat.lt_succ_self v.counter)
    (some (.leaf node key value))
  have h₂ := nodeSum_update f (update v.core v.counter (some (.leaf node key value)))
    (Nat.lt_succ_of_lt (inv.fresh hang.node_at)) (some (nd.link ps key v.counter))
  rw [update_of_ne (inv.hang_ne hang), hang.node_at] at h₂
  rw [nodeSum_succ hf inv.dead_counter, inv.dead_counter, hf] at h₁
  rw [add_zero] at h₁
  rw [hlink, h₁] at h₂
  rw [addLeaf_core]
  exact add_right_cancel h₂

theorem addLeaf : TreeInv ps (v.addLeaf ps node nd key value) := by
  have hne := inv.hang_ne hang
  -- a node of the new tree is the leaf, the node it hangs from, or an old one
  have hbound : ∀ {i n}, (v.addLeaf ps node nd key value).core i = some n → i < v.counter + 1 := by
    intro i n hi
    have hp := inv.fresh hang.node_at
    rcases addLeaf_cases hi with ⟨rfl, _⟩ | ⟨rfl, _⟩ | ⟨_, _, hi⟩
    · omega
    · omega
    · have := inv.fresh hi
      omega
  have hwf := inv.wellFormed_addLeaf hang
  have hlock : ∀ {i n}, (v.addLeaf ps node nd key value).core i = some n → 0 ≤ n.lockRef := by
    intro i n hi
    rcases addLeaf_cases hi with ⟨_, rfl⟩ | ⟨_, rfl⟩ | ⟨_, _, hi⟩
    · simp [NodeCore.leaf]
    · exact inv.lock_nonneg (n := nd) hang.node_at
    · exact inv.lock_nonneg hi
  refine
    { trie := ?_
      fresh := fun hi => by rw [addLeaf_counter]; exact hbound hi
      value_len := ?_
      lock_nonneg := hlock
      root_lock := ?_
      evictable_eq := ?_
      protected_eq := ?_
      leaves_nodup := ?_
      leaf_ok := ?_ }
  · rw [addLeaf_rootNode]
    refine hwf.of_spells ?_
    have := hwf.spells_spell (v.counter + 1) (fun i c hi => ?_)
      (labelOf (v.addLeaf ps node nd key value).trie)
    · unfold TreeView.word
      rwa [addLeaf_rootNode, addLeaf_counter]
    · obtain ⟨n, hn, _⟩ := skeleton_some hi
      exact hbound hn
  · intro i n hi
    rcases addLeaf_cases hi with ⟨_, rfl⟩ | ⟨_, rfl⟩ | ⟨_, _, hi⟩
    · exact hang.value_len
    · exact inv.value_len (n := nd) hang.node_at
    · exact inv.value_len hi
  · intro n hi
    rw [addLeaf_rootNode] at hi
    obtain ⟨rn, hrn, _⟩ := inv.root_live
    rcases addLeaf_cases hi with ⟨hx, _⟩ | ⟨hx, rfl⟩ | ⟨_, _, hi⟩
    · have := inv.fresh hrn
      omega
    · refine inv.root_lock (n := nd) ?_
      rw [hx]
      exact hang.node_at
    · exact inv.root_lock hi
  · -- the leaf adds its length to the evictable size
    rw [addLeaf_counter, inv.nodeSum_addLeaf hang rfl rfl, ← inv.evictable_eq]
    simp [TreeView.addLeaf, evictableLen, NodeCore.leaf]
  · rw [addLeaf_counter, inv.nodeSum_addLeaf hang rfl rfl, ← inv.protected_eq]
    simp [TreeView.addLeaf, protectedLen, NodeCore.leaf]
  · exact TreeView.nodup_updateLeafStatus _ _ (TreeView.nodup_updateLeafStatus _ _
      inv.leaves_nodup)
  · intro i
    by_cases hix : i = v.counter
    · subst hix
      refine TreeView.leafOk_updateLeafStatus _ (.leaf node key value) ?_ (by
        simp [NodeCore.leaf]) (TreeView.nodup_updateLeafStatus _ _ inv.leaves_nodup)
      simp [hne.symm]
    refine TreeView.leafOk_updateLeafStatus_of_ne _ hix ?_
    by_cases hin : i = node
    · subst hin
      exact TreeView.leafOk_updateLeafStatus _ (nd.link ps key v.counter) (by simp)
        (inv.lock_nonneg (n := nd) hang.node_at) inv.leaves_nodup
    · refine TreeView.leafOk_updateLeafStatus_of_ne _ hin ?_
      exact TreeView.LeafOk.congr (v := v) Iff.rfl
        (TreeView.evictable_congr (by simp [hix, hin])) (inv.leaf_ok i)

theorem word_addLeaf (hi : v.core i = some n) :
    (v.addLeaf ps node nd key value).word i = v.word i := by
  obtain ⟨n', hn', _⟩ := inv.addLeaf_live hang hi
  have h := (inv.addLeaf hang).word_eq
    (by rw [addLeaf_rootNode]; exact (inv.wellFormed_addLeaf hang).spells) hn'
  rw [h, update_of_ne (inv.fresh hi).ne]

theorem word_addLeaf_new :
    (v.addLeaf ps node nd key value).word v.counter = v.word node ++ key.letters := by
  have h := (inv.addLeaf hang).word_eq
    (by rw [addLeaf_rootNode]; exact (inv.wellFormed_addLeaf hang).spells)
    (inv.addLeaf_new hang)
  rw [h, update_self]

theorem slots_addLeaf (hi : v.core i = some n) :
    (v.addLeaf ps node nd key value).slots i = v.slots i := by
  obtain ⟨n', hn', _⟩ := inv.addLeaf_live hang hi
  have h := (inv.addLeaf hang).slots_eq
    (by rw [addLeaf_rootNode]; exact inv.spells_slots_addLeaf hang) hn'
  rw [h, update_of_ne (inv.fresh hi).ne]

theorem slots_addLeaf_new :
    (v.addLeaf ps node nd key value).slots v.counter = v.slots node ++ value := by
  have h := (inv.addLeaf hang).slots_eq
    (by rw [addLeaf_rootNode]; exact inv.spells_slots_addLeaf hang) (inv.addLeaf_new hang)
  rw [h, update_self]

theorem path_addLeaf (hi : v.core i = some n) :
    (v.addLeaf ps node nd key value).path i = v.path i := by
  refine (inv.addLeaf hang).path_eq ?_
  rw [inv.trie_addLeaf hang, addLeaf_rootNode]
  exact (inv.path_up hi).addLeaf (trie_at hang.node_at) (skeleton_none inv.dead_counter)

end AddLeaf

end TreeInv

/-! ## Section 3: Removing a leaf -/

/-- `_delete_leaf` on views. -/
def TreeView.removeLeaf (ps : Nat) (v : TreeView) (node : Nat) (nd : NodeCore) (p : Nat)
    (pn : NodeCore) : TreeView :=
  TreeView.updateLeafStatus { v with
    core := update (update v.core p (some (pn.unlink ps nd.key))) node none
    evictableSize := v.evictableSize - nd.key.len
    evictableLeaves := v.evictableLeaves.erase node } p

namespace TreeInv

variable {ps : Nat} {v : TreeView}

section RemoveLeaf

variable {node p : Nat} {nd pn : NodeCore}

/-- What `_delete_leaf` is called on: a linked node that eviction may take. -/
structure Prune (v : TreeView) (node : Nat) (nd : NodeCore) (p : Nat) (pn : NodeCore) : Prop where
  node_at : v.core node = some nd
  parent_eq : nd.parent = some p
  parent_at : v.core p = some pn
  unlocked : nd.lockRef = 0
  childless : nd.children.entries = []

theorem removeLeaf_core :
    (v.removeLeaf ps node nd p pn).core =
      update (update v.core p (some (pn.unlink ps nd.key))) node none := by
  simp [TreeView.removeLeaf]

@[simp] theorem removeLeaf_counter : (v.removeLeaf ps node nd p pn).counter = v.counter := by
  simp [TreeView.removeLeaf]

@[simp] theorem removeLeaf_rootNode : (v.removeLeaf ps node nd p pn).rootNode = v.rootNode := by
  simp [TreeView.removeLeaf]

theorem Prune.no_child (prune : Prune v node nd p pn) :
    ∀ k, nd.toTreeLinks.cell.child k = none :=
  (entries_eq_nil_iff _).mp prune.childless

variable {i : Nat} {n : NodeCore}

theorem removeLeaf_cases (hi : (v.removeLeaf ps node nd p pn).core i = some n) :
    i ≠ node ∧ ((i = p ∧ n = pn.unlink ps nd.key) ∨ (i ≠ p ∧ v.core i = some n)) := by
  rw [removeLeaf_core] at hi
  by_cases hin : i = node
  · subst hin
    simp at hi
  rw [update_of_ne hin] at hi
  refine ⟨hin, ?_⟩
  by_cases hip : i = p
  · subst hip
    rw [update_self] at hi
    cases hi
    exact .inl ⟨rfl, rfl⟩
  · rw [update_of_ne hip] at hi
    exact .inr ⟨hip, hi⟩

theorem removeLeaf_live (prune : Prune v node nd p pn) (hin : i ≠ node) (hi : v.core i = some n) :
    ∃ n', (v.removeLeaf ps node nd p pn).core i = some n' ∧ n'.lockRef = n.lockRef := by
  by_cases hip : i = p
  · subst hip
    rw [prune.parent_at] at hi
    cases hi
    exact ⟨pn.unlink ps nd.key, by simp [removeLeaf_core, hin], rfl⟩
  · exact ⟨n, by simp [removeLeaf_core, hin, hip, hi], rfl⟩

theorem removeLeaf_old (prune : Prune v node nd p pn)
    (hi : (v.removeLeaf ps node nd p pn).core i = some n) :
    i ≠ node ∧ ∃ n', v.core i = some n' ∧ n'.lockRef = n.lockRef := by
  obtain ⟨hin, ⟨rfl, rfl⟩ | ⟨_, hi⟩⟩ := removeLeaf_cases hi
  · exact ⟨hin, pn, prune.parent_at, rfl⟩
  · exact ⟨hin, n, hi, rfl⟩

variable (inv : TreeInv ps v) (prune : Prune v node nd p pn)

include inv prune

theorem prune_ne : p ≠ node := inv.trie.parent_ne_self (trie_at prune.node_at) prune.parent_eq

theorem trie_removeLeaf :
    (v.removeLeaf ps node nd p pn).trie =
      PageTrie.removeLeaf RadixKey.ChildKey.ofLetters ps v.trie p pn.toTreeLinks.cell node
        nd.toTreeLinks.cell.label := by
  have hunlink := NodeCore.unlink_cell pn inv.trie.page_pos
    (inv.page_le_len prune.node_at prune.parent_eq)
  simp only [TreeView.trie, removeLeaf_core, skeleton_update, PageTrie.removeLeaf, map_some,
    map_none, hunlink]
  rfl

theorem wellFormed_removeLeaf :
    WellFormed RadixKey.ChildKey.ofLetters ps v.rootNode (v.removeLeaf ps node nd p pn).trie
      v.word := by
  rw [inv.trie_removeLeaf prune]
  exact inv.trie.removeLeaf (trie_at prune.parent_at) (trie_at prune.node_at) prune.parent_eq
    prune.no_child

theorem spells_slots_removeLeaf :
    Spells v.rootNode (v.removeLeaf ps node nd p pn).trie
      (valueOf NodeCore.toTreeLinks (v.removeLeaf ps node nd p pn).core) v.slots := by
  rw [inv.trie_removeLeaf prune]
  refine inv.spells_slots.removeLeaf (trie_at prune.parent_at) fun i hin => ?_
  by_cases hip : i = p
  · subst hip
    simp [valueOf_update, removeLeaf_core, hin, NodeCore.unlink, valueOf_at prune.parent_at]
  · simp [valueOf_update, removeLeaf_core, hin, hip]

theorem nodeSum_removeLeaf {M : Type*} [AddCancelCommMonoid M] {f : Option NodeCore → M}
    (hf : f none = 0) (hunlink : f (some (pn.unlink ps nd.key)) = f (some pn)) :
    nodeSum f (v.removeLeaf ps node nd p pn).core v.counter + f (some nd) =
      nodeSum f v.core v.counter := by
  have hne := inv.prune_ne prune
  have h₁ := nodeSum_update f v.core (inv.fresh prune.parent_at) (some (pn.unlink ps nd.key))
  have h₂ := nodeSum_update f (update v.core p (some (pn.unlink ps nd.key)))
    (inv.fresh prune.node_at) none
  rw [update_of_ne hne.symm, prune.node_at, hf] at h₂
  rw [prune.parent_at, hunlink] at h₁
  rw [add_zero] at h₂
  rw [removeLeaf_core, h₂]
  exact add_right_cancel h₁

theorem removeLeaf : TreeInv ps (v.removeLeaf ps node nd p pn) := by
  have hne := inv.prune_ne prune
  have hbound : ∀ {i n}, (v.removeLeaf ps node nd p pn).core i = some n → i < v.counter := by
    intro i n hi
    obtain ⟨_, n', hn', _⟩ := removeLeaf_old prune hi
    exact inv.fresh hn'
  have hwf := inv.wellFormed_removeLeaf prune
  refine
    { trie := ?_
      fresh := fun hi => by rw [removeLeaf_counter]; exact hbound hi
      value_len := ?_
      lock_nonneg := ?_
      root_lock := ?_
      evictable_eq := ?_
      protected_eq := ?_
      leaves_nodup := ?_
      leaf_ok := ?_ }
  · rw [removeLeaf_rootNode]
    refine hwf.of_spells ?_
    have := hwf.spells_spell v.counter (fun i c hi => ?_)
      (labelOf (v.removeLeaf ps node nd p pn).trie)
    · unfold TreeView.word
      rwa [removeLeaf_rootNode, removeLeaf_counter]
    · obtain ⟨n, hn, _⟩ := skeleton_some hi
      exact hbound hn
  · intro i n hi
    obtain ⟨_, ⟨rfl, rfl⟩ | ⟨_, hi⟩⟩ := removeLeaf_cases hi
    · exact inv.value_len (n := pn) prune.parent_at
    · exact inv.value_len hi
  · intro i n hi
    obtain ⟨_, n', hn', hlock⟩ := removeLeaf_old prune hi
    rw [← hlock]
    exact inv.lock_nonneg hn'
  · intro n hi
    rw [removeLeaf_rootNode] at hi
    obtain ⟨_, n', hn', hlock⟩ := removeLeaf_old prune hi
    rw [← hlock]
    exact inv.root_lock hn'
  · -- the leaf is unlocked, so only the evictable size loses its length
    have hsum := inv.nodeSum_removeLeaf (f := evictableLen) prune rfl rfl
    rw [← inv.evictable_eq] at hsum
    rw [removeLeaf_counter, eq_sub_of_add_eq hsum]
    simp [TreeView.removeLeaf, evictableLen, prune.unlocked]
  · have hsum := inv.nodeSum_removeLeaf (f := protectedLen) prune rfl rfl
    rw [← inv.protected_eq] at hsum
    rw [removeLeaf_counter, eq_sub_of_add_eq hsum]
    simp [TreeView.removeLeaf, protectedLen, prune.unlocked]
  · exact TreeView.nodup_updateLeafStatus _ _ (inv.leaves_nodup.erase _)
  · intro i
    by_cases hip : i = p
    · subst hip
      exact TreeView.leafOk_updateLeafStatus _ (pn.unlink ps nd.key) (by simp [hne])
        (inv.lock_nonneg (n := pn) prune.parent_at) (inv.leaves_nodup.erase _)
    refine TreeView.leafOk_updateLeafStatus_of_ne _ hip ?_
    by_cases hin : i = node
    · subst hin
      simp [TreeView.LeafOk, TreeView.Evictable, inv.leaves_nodup.not_mem_erase]
    · exact TreeView.LeafOk.congr (v := v) (mem_erase_of_ne hin)
        (TreeView.evictable_congr (by simp [hip, hin])) (inv.leaf_ok i)

section

variable (hin : i ≠ node) (hi : v.core i = some n)
include hin hi

theorem word_removeLeaf :
    (v.removeLeaf ps node nd p pn).word i = v.word i := by
  obtain ⟨n', hn', _⟩ := removeLeaf_live prune hin hi
  exact (inv.removeLeaf prune).word_eq
    (by rw [removeLeaf_rootNode]; exact (inv.wellFormed_removeLeaf prune).spells) hn'

theorem slots_removeLeaf :
    (v.removeLeaf ps node nd p pn).slots i = v.slots i := by
  obtain ⟨n', hn', _⟩ := removeLeaf_live prune hin hi
  exact (inv.removeLeaf prune).slots_eq
    (by rw [removeLeaf_rootNode]; exact inv.spells_slots_removeLeaf prune) hn'

theorem path_removeLeaf :
    (v.removeLeaf ps node nd p pn).path i = v.path i := by
  refine (inv.removeLeaf prune).path_eq ?_
  rw [inv.trie_removeLeaf prune, removeLeaf_rootNode]
  exact (inv.path_up hi).removeLeaf inv.trie (trie_at prune.parent_at) (trie_at prune.node_at)
    prune.no_child hin

theorem prune_not_mem_path :
    node ∉ v.path i :=
  inv.trie.not_mem_path_of_childless (trie_at prune.node_at) prune.no_child
    (inv.path_up hi) hin

end

end RemoveLeaf

end TreeInv

/-! ## Section 4: Changing a lock count -/

/-- One visit of `inc_lock_ref` or `dec_lock_ref` on views: set the lock count of a node. -/
def TreeView.relock (v : TreeView) (node : Nat) (nd : NodeCore) (lock : Int) : TreeView :=
  TreeView.updateLeafStatus { v with
    core := update v.core node (some { nd with lockRef := lock })
    evictableSize := v.evictableSize - evictableLen (some nd) +
      evictableLen (some { nd with lockRef := lock })
    protectedSize := v.protectedSize - protectedLen (some nd) +
      protectedLen (some { nd with lockRef := lock }) } node

namespace TreeInv

variable {ps : Nat} {v : TreeView}

section Relock

variable {node : Nat} {nd : NodeCore} {lock : Int}

theorem relock_core :
    (v.relock node nd lock).core =
      update v.core node (some { nd with lockRef := lock }) := by
  simp [TreeView.relock]

@[simp] theorem relock_counter : (v.relock node nd lock).counter = v.counter := by
  simp [TreeView.relock]

@[simp] theorem relock_rootNode : (v.relock node nd lock).rootNode = v.rootNode := by
  simp [TreeView.relock]

theorem trie_relock (hnd : v.core node = some nd) : (v.relock node nd lock).trie = v.trie := by
  simp only [TreeView.trie, relock_core, skeleton_update]
  refine update_eq_self_iff.mpr ?_
  simp [skeleton, hnd]

theorem word_relock (hnd : v.core node = some nd) : (v.relock node nd lock).word = v.word := by
  unfold TreeView.word
  rw [trie_relock hnd, relock_rootNode, relock_counter]

theorem relock (inv : TreeInv ps v) (hnd : v.core node = some nd) (hroot : node ≠ v.rootNode)
    (hlock : 0 ≤ lock) : TreeInv ps (v.relock node nd lock) := by
  -- only the lock count of `node` has changed
  have hcases : ∀ {i n}, (v.relock node nd lock).core i = some n →
      (i = node ∧ n = { nd with lockRef := lock }) ∨ (i ≠ node ∧ v.core i = some n) := by
    intro i n hi
    rw [relock_core] at hi
    by_cases hin : i = node
    · subst hin
      rw [update_self] at hi
      cases hi
      exact .inl ⟨rfl, rfl⟩
    · rw [update_of_ne hin] at hi
      exact .inr ⟨hin, hi⟩
  have hsum : ∀ f : Option NodeCore → Int,
      nodeSum f (v.relock node nd lock).core v.counter =
        nodeSum f v.core v.counter - f (some nd) + f (some { nd with lockRef := lock }) := by
    intro f
    have h := nodeSum_update f v.core (inv.fresh hnd) (some { nd with lockRef := lock })
    rw [hnd] at h
    rw [relock_core]
    linarith
  refine
    { trie := ?_
      fresh := ?_
      value_len := ?_
      lock_nonneg := ?_
      root_lock := ?_
      evictable_eq := ?_
      protected_eq := ?_
      leaves_nodup := TreeView.nodup_updateLeafStatus _ _ inv.leaves_nodup
      leaf_ok := ?_ }
  · rw [relock_rootNode, trie_relock hnd, word_relock hnd]
    exact inv.trie
  · intro i n hi
    rw [relock_counter]
    rcases hcases hi with ⟨rfl, _⟩ | ⟨_, hi⟩
    · exact inv.fresh hnd
    · exact inv.fresh hi
  · intro i n hi
    rcases hcases hi with ⟨_, rfl⟩ | ⟨_, hi⟩
    · exact inv.value_len (n := nd) hnd
    · exact inv.value_len hi
  · intro i n hi
    rcases hcases hi with ⟨_, rfl⟩ | ⟨_, hi⟩
    · exact hlock
    · exact inv.lock_nonneg hi
  · intro n hi
    rw [relock_rootNode] at hi
    rcases hcases hi with ⟨heq, _⟩ | ⟨_, hi⟩
    · exact absurd heq.symm hroot
    · exact inv.root_lock hi
  · rw [relock_counter, hsum, ← inv.evictable_eq]
    simp [TreeView.relock]
  · rw [relock_counter, hsum, ← inv.protected_eq]
    simp [TreeView.relock]
  · intro i
    by_cases hin : i = node
    · subst hin
      exact TreeView.leafOk_updateLeafStatus _ { nd with lockRef := lock } (by simp) hlock
        inv.leaves_nodup
    · refine TreeView.leafOk_updateLeafStatus_of_ne _ hin ?_
      exact TreeView.LeafOk.congr (v := v) Iff.rfl
        (TreeView.evictable_congr (by simp [hin])) (inv.leaf_ok i)

end Relock

end TreeInv

end Sglang.MemCache
