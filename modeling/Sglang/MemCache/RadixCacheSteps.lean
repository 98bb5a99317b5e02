import Sglang.MemCache.RadixTreeMutation

/-!
# Steps of the Radix Cache on its Tree

Relates the operations of `RadixCache` to the four mutations of its view, once each.

- `Reshape`: what a lookup may do to the tree. `match_prefix` and the loop of `_insert_helper`
  only assign metadata and cut nodes.
- `matchLoop_spec`, `insertLoop_spec`: the loops return, stop at the deepest node that spells a
  prefix of the key, and reshape the tree on the way.
- `addNode_eq`, `deleteLeaf_eq`, `incLockNode_view`, `decLockNode_view`: the other mutations.
-/

namespace Sglang.MemCache

open List Option Function
open Lib

/-! ## Section 1: Views of the updates -/

namespace RadixCache

variable {s : RadixCache} {i : Nat} (cfg : CacheConfig) {node : Nat} {nd : TreeNode}

theorem core_at {n : TreeNode} (h : s.nodes i = some n) :
    s.view.core i = some n.toNodeCore := by
  simp [view, h]

theorem exists_node {c : NodeCore} (h : s.view.core i = some c) :
    ∃ n, s.nodes i = some n ∧ n.toNodeCore = c := by
  obtain ⟨n, hn, rfl⟩ := map_eq_some_iff.mp h
  exact ⟨n, hn, rfl⟩

theorem core_update (nodes : Nat → Option TreeNode) (i : Nat) (v : Option TreeNode) :
    (fun j => (update nodes i v j).map TreeNode.toNodeCore) =
      update (fun j => (nodes j).map TreeNode.toNodeCore) i
        (v.map TreeNode.toNodeCore) := by
  funext j
  by_cases hj : j = i
  · subst hj
    simp
  · simp [update_of_ne hj]

/-- An assignment that touches neither links, locks nor hashes. -/
def Cosmetic (f : TreeNode → TreeNode) : Prop :=
  ∀ n, (f n).toNodeCore = n.toNodeCore ∧ (f n).hashValue = n.hashValue

theorem cosmetic_access (now : Int) : Cosmetic (accessNode now) := fun _ => ⟨rfl, rfl⟩

theorem cosmetic_visit (priority : Int) (chunked : Bool) :
    Cosmetic (visitNode priority chunked) := by
  intro n
  cases chunked <;> exact ⟨rfl, rfl⟩

theorem view_modifyNode (s : RadixCache) (i : Nat) {f : TreeNode → TreeNode} (hf : Cosmetic f) :
    (s.modifyNode i f).view = s.view := by
  unfold modifyNode view
  congr 1
  rw [core_update]
  refine update_eq_self_iff.mpr ?_
  cases s.nodes i with
  | none => rfl
  | some n => simp [(hf n).1]

theorem nodes_modifyNode {n : TreeNode} (h : s.nodes i = some n)
    (f : TreeNode → TreeNode) : (s.modifyNode i f).nodes i = some (f n) := by
  simp [modifyNode, h]

theorem view_updateLeafStatus (s : RadixCache) (node : Nat) :
    (s.updateLeafStatus node).view = s.view.updateLeafStatus node := by
  unfold updateLeafStatus TreeView.updateLeafStatus
  cases h : s.nodes node with
  | none => simp [view, h]
  | some nd =>
    simp only [core_at h]
    split
    · rfl
    · split
      · rfl
      · split <;> simp_all [view]

theorem splitNode_eq (now : Int) {child p k : Nat}
    {c pn : TreeNode} (hc : s.nodes child = some c) (hp : c.parent = some p)
    (hpn : s.nodes p = some pn) :
    ∃ s', s.splitNode cfg now c.key child k = some (s', s.counter) ∧
      s'.view = s.view.splitAt cfg.pageSize child c.toNodeCore p pn.toNodeCore k := by
  simp only [splitNode, hc, hp, hpn, bind_eq_bind, bind_some]
  refine ⟨_, rfl, ?_⟩
  simp only [view, TreeView.splitAt, core_update, map_some]
  rfl

theorem addNode_eq (now priority : Int) (chunked : Bool) (hnd : s.nodes node = some nd)
    (key : RadixKey) (value : List Nat) :
    ∃ s', s.addNode cfg now priority chunked node key value = some (s', s.counter) ∧
      s'.view = s.view.addLeaf cfg.pageSize node nd.toNodeCore key value := by
  simp only [addNode, hnd, bind_eq_bind, bind_some]
  refine ⟨_, rfl, ?_⟩
  rw [view_updateLeafStatus, view_updateLeafStatus]
  simp only [view, TreeView.addLeaf, core_update, map_some]
  cases chunked <;> rfl

theorem deleteLeaf_eq {node p : Nat} {nd pn : TreeNode}
    (hnd : s.nodes node = some nd) (hp : nd.parent = some p) (hpn : s.nodes p = some pn)
    (hchild : pn.children.lookup (nd.key.childKey cfg.pageSize) = some node) :
    ∃ s', s.deleteLeaf cfg node = some s' ∧
      s'.view = s.view.removeLeaf cfg.pageSize node nd.toNodeCore p pn.toNodeCore := by
  simp only [deleteLeaf, hnd, hp, hpn, bind_eq_bind, bind_some, hchild, if_true]
  refine ⟨_, rfl, ?_⟩
  rw [view_updateLeafStatus]
  simp only [view, TreeView.removeLeaf, discardSessionLeaf, setNode, dropNode, core_update,
    map_some, map_none]
  rfl

theorem incLockNode_view {delta : Int}
    (hlock : 0 ≤ nd.lockRef) :
    (incLockNode (s, delta) node nd).1.view =
      s.view.relock node nd.toNodeCore (nd.lockRef + 1) := by
  have hne : nd.lockRef + 1 ≠ 0 := by omega
  unfold incLockNode TreeView.relock
  dsimp only
  rw [view_updateLeafStatus]
  congr 1
  split
  · next h => simp [view, setNode, core_update, evictableLen, protectedLen, h]
  · next h => simp [view, setNode, core_update, evictableLen, protectedLen, h, hne]

theorem decLockNode_view {delta : Int}
    (hlock : 1 ≤ nd.lockRef) :
    (decLockNode (s, delta) node nd).1.view =
      s.view.relock node nd.toNodeCore (nd.lockRef - 1) := by
  have hne : nd.lockRef ≠ 0 := by omega
  unfold decLockNode TreeView.relock
  dsimp only
  rw [view_updateLeafStatus]
  congr 1
  split
  · next h => simp [view, setNode, core_update, evictableLen, protectedLen, h]
  · next h =>
    have : nd.lockRef - 1 ≠ 0 := by omega
    simp [view, setNode, core_update, evictableLen, protectedLen, hne, this]

/-! ## Section 2: Lookups reshape the tree -/

/-- What a lookup does to a cache: assign metadata and cut nodes. -/
inductive Reshape (cfg : CacheConfig) (s : RadixCache) : RadixCache → Prop where
  | refl : Reshape cfg s s
  | touch {t : RadixCache} (i : Nat) {f : TreeNode → TreeNode} (hf : Cosmetic f)
      (h : Reshape cfg s t) : Reshape cfg s (t.modifyNode i f)
  | split {t t' : RadixCache} {now : Int} {child p k x : Nat} {c : TreeNode} {pn : NodeCore}
      (hc : t.nodes child = some c)
      (cut : TreeInv.Cut cfg.pageSize t.view child c.toNodeCore p pn k)
      (heq : t.splitNode cfg now c.key child k = some (t', x)) (h : Reshape cfg s t) :
      Reshape cfg s t'

namespace Reshape

variable {cfg : CacheConfig} {s t u : RadixCache}

theorem trans (h : Reshape cfg s t) (h' : Reshape cfg t u) : Reshape cfg s u := by
  induction h' with
  | refl => exact h
  | touch i hf _ ih => exact .touch i hf ih
  | split hc cut heq _ ih => exact .split hc cut heq ih

theorem view_split {now : Int} {child p k x : Nat} {c : TreeNode} {pn : NodeCore}
    (hc : t.nodes child = some c)
    (cut : TreeInv.Cut cfg.pageSize t.view child c.toNodeCore p pn k)
    (heq : t.splitNode cfg now c.key child k = some (u, x)) :
    x = t.counter ∧ u.view = t.view.splitAt cfg.pageSize child c.toNodeCore p pn k := by
  obtain ⟨pnn, hpnn, rfl⟩ := exists_node cut.parent_at
  obtain ⟨s', hs', hview⟩ := splitNode_eq cfg now (k := k) hc cut.parent_eq hpnn
  rw [heq] at hs'
  cases hs'
  exact ⟨rfl, hview⟩

theorem inv (h : Reshape cfg s t) (inv : TreeInv cfg.pageSize s.view) :
    TreeInv cfg.pageSize t.view := by
  induction h with
  | refl => exact inv
  | touch i hf _ ih =>
    rw [view_modifyNode _ _ hf]
    exact ih
  | split hc cut heq _ ih =>
    rw [(view_split hc cut heq).2]
    exact ih.splitAt cut

theorem rootNode_eq (h : Reshape cfg s t) : t.view.rootNode = s.view.rootNode := by
  induction h with
  | refl => rfl
  | touch i hf _ ih =>
    rw [view_modifyNode _ _ hf]
    exact ih
  | split hc cut heq _ ih =>
    rw [(view_split hc cut heq).2]
    exact ih

theorem keeps (h : Reshape cfg s t) (inv : TreeInv cfg.pageSize s.view) {i : Nat} {n : NodeCore}
    (hi : s.view.core i = some n) :
    ∃ n', t.view.core i = some n' ∧ n'.lockRef = n.lockRef ∧ t.view.word i = s.view.word i ∧
      t.view.slots i = s.view.slots i := by
  induction h with
  | refl => exact ⟨n, hi, rfl, rfl, rfl⟩
  | touch i hf _ ih =>
    rw [view_modifyNode _ _ hf]
    exact ih
  | split hc cut heq h ih =>
    obtain ⟨n', hn', hlock, hword, hslots⟩ := ih
    have inv' := h.inv inv
    rw [(view_split hc cut heq).2]
    obtain ⟨n'', hn'', hlock'⟩ := inv'.splitAt_live cut hn'
    exact ⟨n'', hn'', hlock'.trans hlock, (inv'.word_splitAt cut hn').trans hword,
      (inv'.slots_splitAt cut hn').trans hslots⟩

/-- `j` is the node that `i` was, or was cut from. -/
structure Origin (s t : RadixCache) (i j : Nat) (n' n : NodeCore) : Prop where
  source : s.view.core j = some n
  lock : n'.lockRef = n.lockRef
  word : t.view.word i <+: s.view.word j
  slots : t.view.slots i <+: s.view.slots j
  path : ∀ m nm, s.view.core m = some nm → (i ∈ t.view.path m ↔ j ∈ s.view.path m)
  root : j = s.view.rootNode → i = s.view.rootNode

/-- Every node of the reshaped tree comes from a node of the old one. -/
theorem origin (h : Reshape cfg s t) (inv : TreeInv cfg.pageSize s.view) {i : Nat}
    {n' : NodeCore} (hi : t.view.core i = some n') : ∃ j n, Origin s t i j n' n := by
  induction h generalizing i n' with
  | refl => exact ⟨i, n', hi, rfl, prefix_rfl, prefix_rfl, fun _ _ _ => Iff.rfl, id⟩
  | touch k hf _ ih =>
    rw [view_modifyNode _ _ hf] at hi
    obtain ⟨j, n, org⟩ := ih hi
    refine ⟨j, n, org.source, org.lock, ?_, ?_, ?_, org.root⟩
    · rw [view_modifyNode _ _ hf]
      exact org.word
    · rw [view_modifyNode _ _ hf]
      exact org.slots
    · rw [view_modifyNode _ _ hf]
      exact org.path
  | @split t t' now child p k x c pn hc cut heq h ih =>
    have hview := (view_split hc cut heq).2
    have inv' := h.inv inv
    rw [hview] at hi
    -- the upper half was cut from `child`; every other node is itself
    by_cases hx : i = t.view.counter
    · obtain ⟨j, n, org⟩ := ih cut.child_at
      rw [hx, inv'.splitAt_front cut] at hi
      cases hi
      refine ⟨j, n, org.source, org.lock, ?_, ?_, ?_, ?_⟩
      · rw [hview, hx, inv'.word_splitAt_front cut]
        refine List.IsPrefix.trans ?_ org.word
        rw [inv'.word_child cut.child_at cut.parent_eq]
        exact (prefix_append_right_inj _).mpr (List.take_prefix _ _)
      · rw [hview, hx, inv'.slots_splitAt_front cut]
        refine List.IsPrefix.trans ?_ org.slots
        rw [inv'.slots_child cut.child_at cut.parent_eq]
        exact (prefix_append_right_inj _).mpr (List.take_prefix _ _)
      · intro m nm hm
        obtain ⟨nm', hm', _⟩ := h.keeps inv hm
        rw [hview, inv'.path_splitAt cut hm', PageTrie.mem_insertAbove, ← org.path m nm hm, hx]
        have hnot : t.view.counter ∉ t.view.path m := by
          intro hmem
          obtain ⟨⟨cc, hcc⟩, _⟩ := inv'.trie.path_mem (inv'.path_up hm') _ hmem
          exact absurd (inv'.bound _ _ hcc) (lt_irrefl _)
        simp [hnot]
      · intro hroot
        have := org.root hroot
        exact absurd (this.trans h.rootNode_eq.symm) (inv'.ne_root cut.child_at cut.parent_eq)
    · have hold : ∃ n₀, t.view.core i = some n₀ ∧ n'.lockRef = n₀.lockRef := by
        rcases inv'.splitAt_cases cut hi with ⟨hx', _⟩ | ⟨rfl, rfl⟩ | ⟨rfl, rfl⟩ | ⟨_, _, _, hi⟩
        · exact absurd hx' hx
        · exact ⟨_, cut.child_at, rfl⟩
        · exact ⟨_, cut.parent_at, rfl⟩
        · exact ⟨_, hi, rfl⟩
      obtain ⟨n₀, hn₀, hlock⟩ := hold
      obtain ⟨j, n, org⟩ := ih hn₀
      refine ⟨j, n, org.source, hlock.trans org.lock, ?_, ?_, ?_, org.root⟩
      · rw [hview, inv'.word_splitAt cut hn₀]
        exact org.word
      · rw [hview, inv'.slots_splitAt cut hn₀]
        exact org.slots
      · intro m nm hm
        obtain ⟨nm', hm', _⟩ := h.keeps inv hm
        rw [hview, inv'.path_splitAt cut hm', PageTrie.mem_insertAbove, ← org.path m nm hm]
        simp [hx]

end Reshape

/-! ## Section 3: One iteration of a lookup -/

/-- What an iteration learns about the child found under the next page of `key`: they agree on
`k ≥ page_size` units and, if neither ends there, differ on the page after. -/
structure ChildMatch (ps : Nat) (v : TreeView) (node : Nat) (key : RadixKey) (child : Nat)
    (c : NodeCore) (k : Nat) : Prop where
  child_at : v.core child = some c
  parent_eq : c.parent = some node
  match_eq : c.key.match key ps = some k
  dvd : ps ∣ k
  page_le : ps ≤ k
  le_child : k ≤ c.key.len
  le_key : k ≤ key.len
  agree : c.key.letters.take k = key.letters.take k
  differ : k < c.key.len → k < key.len →
    (c.key.dropUnits k).childKey ps ≠ (key.dropUnits k).childKey ps

theorem childMatch_of_lookup {ps : Nat} {v : TreeView} (inv : TreeInv ps v) {node child : Nat}
    {nd : NodeCore} {key : RadixKey} (hnd : v.core node = some nd) (hpos : 0 < key.len)
    (hdvd : ps ∣ key.len) (hlook : nd.children.lookup (key.childKey ps) = some child) :
    ∃ c k, ChildMatch ps v node key child c k := by
  have hps := inv.trie.page_pos
  obtain ⟨c, hc, hpar, hck⟩ := inv.of_lookup hnd hlook
  have hclen := inv.page_le_len hc hpar
  have hcdvd : ps ∣ c.key.len := by
    have := inv.trie.label_dvd (TreeInv.trie_at hc)
    simpa [TreeLinks.cell] using this
  have hklen : ps ≤ key.len := Nat.le_of_dvd hpos hdvd
  obtain ⟨hmode, hextra⟩ := compatible_of_childKey_eq hps hclen hklen hck
  have hmatch : c.key.match key ps = some (pageFloor ps (lcp c.key.letters key.letters)) := by
    unfold RadixKey.match
    rw [if_neg (not_not.mpr hextra), RadixKey.matchLen_eq_lcp_letters hps hmode hextra]
  set k := pageFloor ps (lcp c.key.letters key.letters) with hk
  have hkdvd : ps ∣ k := dvd_pageFloor ps _
  have hkl : k ≤ lcp c.key.letters key.letters := pageFloor_le ps _
  obtain ⟨h₁, h₂, hagree⟩ := le_lcp_iff.mp hkl
  rw [RadixKey.letters_length] at h₁ h₂
  have hpage : ps ≤ k := by
    refine (le_pageFloor_iff (dvd_refl ps)).mpr (le_lcp_iff.mpr ⟨by simpa, by simpa, ?_⟩)
    exact (RadixKey.childKey_eq_iff hps hclen hklen).mp hck
  refine ⟨c, k, hc, hpar, hmatch, hkdvd, hpage, h₁, h₂, hagree, ?_⟩
  intro hlt hlt' heq
  -- a further common page would have been counted
  have hroom : ∀ {len : Nat}, ps ∣ len → k < len → ps ≤ len - k := fun hd hl =>
    Nat.le_of_dvd (by omega) (Nat.dvd_sub hd hkdvd)
  have hc' := hroom hcdvd hlt
  have hk' := hroom hdvd hlt'
  rw [RadixKey.childKey_eq_iff hps (by rw [RadixKey.len_dropUnits]; exact hc')
    (by rw [RadixKey.len_dropUnits]; exact hk'), RadixKey.letters_dropUnits,
    RadixKey.letters_dropUnits] at heq
  have hmore : k + ps ≤ lcp c.key.letters key.letters := by
    refine le_lcp_iff.mpr ⟨by rw [RadixKey.letters_length]; omega,
      by rw [RadixKey.letters_length]; omega, ?_⟩
    rw [take_add, take_add, hagree, heq]
  have := (le_pageFloor_iff (Nat.dvd_add hkdvd (dvd_refl ps))).mpr hmore
  omega

namespace ChildMatch

variable {ps : Nat} {v : TreeView} {node child k : Nat} {nd c : NodeCore} {key : RadixKey}

theorem cut (m : ChildMatch ps v node key child c k) (hps : 0 < ps) (hnd : v.core node = some nd)
    (hlt : k < c.key.len) : TreeInv.Cut ps v child c node nd k where
  child_at := m.child_at
  parent_eq := m.parent_eq
  parent_at := hnd
  pos := by have := m.page_le; omega
  dvd := m.dvd
  lt := hlt

theorem front_lookup (m : ChildMatch ps v node key child c k) (hlt : k < c.key.len)
    (hlt' : k < key.len) :
    (c.front ps node child k).children.lookup ((key.dropUnits k).childKey ps) = none := by
  have := congrFun (lookup_singleton_eq_update ((c.key.dropUnits k).childKey ps) child)
    ((key.dropUnits k).childKey ps)
  simp only [NodeCore.front]
  rw [this, update_of_ne (m.differ hlt hlt').symm]

theorem letters_split (m : ChildMatch ps v node key child c k) :
    key.letters = c.key.letters.take k ++ (key.dropUnits k).letters := by
  rw [m.agree, RadixKey.letters_dropUnits, take_append_drop]

end ChildMatch

/-! ## Section 4: The loops -/

/-- Where a lookup for the letters `w` stops: at a node that spells a prefix of `w` and has no
child under the page that follows. -/
structure Stops (ps : Nat) (v : TreeView) (w : List Letter) (node : Nat) (nd : NodeCore) :
    Prop where
  node_at : v.core node = some nd
  prefix_of : v.word node <+: w
  no_child : w.length < (v.word node).length + ps ∨
    nd.toTreeLinks.cell.child
      (RadixKey.ChildKey.ofLetters ((w.drop (v.word node).length).take ps)) = none

theorem Stops.maximal {ps : Nat} {v : TreeView} (inv : TreeInv ps v) {w : List Letter}
    {nd : NodeCore} (st : Stops ps v w node nd) {n : NodeCore} (hi : v.core i = some n)
    {u : List Letter} (hu : u <+: w) (hu' : u <+: v.word i)
    (hdvd : ps ∣ u.length) : u.length ≤ (v.word node).length :=
  inv.trie.maximal_of_no_child (TreeInv.trie_at st.node_at) st.prefix_of st.no_child
    (TreeInv.trie_at hi) hu hu' hdvd

theorem Stops.of_rest {ps : Nat} {v : TreeView} (inv : TreeInv ps v) {nd : NodeCore}
    {key : RadixKey} (hnd : v.core node = some nd) (hdvd : ps ∣ key.len)
    (hrest : key.len = 0 ∨ nd.children.lookup (key.childKey ps) = none) :
    Stops ps v (v.word node ++ key.letters) node nd where
  node_at := hnd
  prefix_of := prefix_append _ _
  no_child := by
    have hps := inv.trie.page_pos
    rcases Nat.eq_zero_or_pos key.len with hz | hpos
    · left
      simp [hz, hps]
    · right
      rw [drop_left, ← childKey_eq_ofLetters hps (Nat.le_of_dvd hpos hdvd)]
      rcases hrest with hz | hnone
      · omega
      · exact hnone

/-- A match that ends inside a child: `_split_node` makes the boundary a node. -/
theorem split_step (now : Int) {node child k : Nat}
    {nd : NodeCore} {cn : TreeNode} {key : RadixKey} (inv : TreeInv cfg.pageSize s.view)
    (hnd : s.view.core node = some nd) (hcn : s.nodes child = some cn)
    (m : ChildMatch cfg.pageSize s.view node key child cn.toNodeCore k) (hlt : k < cn.key.len) :
    ∃ s' front, s.splitNode cfg now cn.key child k = some (s', s.counter) ∧ Reshape cfg s s' ∧
      s'.nodes s.counter = some front ∧
      s'.view.word s.counter ++ (key.dropUnits k).letters = s.view.word node ++ key.letters ∧
      s'.view.slots s.counter = s.view.slots node ++ front.value ∧
      ((key.dropUnits k).len = 0 ∨
        front.children.lookup ((key.dropUnits k).childKey cfg.pageSize) = none) := by
  have cut := m.cut cfg.pageSize_pos hnd hlt
  obtain ⟨pn, hpn, rfl⟩ := exists_node hnd
  obtain ⟨s', hs', hview⟩ := splitNode_eq cfg now (k := k) hcn cut.parent_eq hpn
  have hfront := inv.splitAt_front cut
  rw [← hview] at hfront
  obtain ⟨front, hf, hfeq⟩ := exists_node hfront
  refine ⟨s', front, hs', .split hcn cut hs' .refl, hf, ?_, ?_, ?_⟩
  · have hword := inv.word_splitAt_front cut
    rw [← hview] at hword
    rw [show s.counter = s.view.counter from rfl, hword, append_assoc, ← m.letters_split]
  · have hslots := inv.slots_splitAt_front cut
    rw [← hview] at hslots
    rw [show s.counter = s.view.counter from rfl, hslots,
      show front.value = front.toNodeCore.value from rfl, hfeq]
    rfl
  · rcases Nat.lt_or_ge k key.len with hlt' | hge
    · refine .inr ?_
      rw [show front.children = front.toNodeCore.children from rfl, hfeq]
      exact m.front_lookup hlt hlt'
    · exact .inl (by rw [RadixKey.len_dropUnits]; omega)

theorem descend_step {ps : Nat} {v : TreeView} {node child k : Nat} {c : NodeCore}
    {key : RadixKey} (inv : TreeInv ps v) (m : ChildMatch ps v node key child c k)
    (hge : ¬ k < c.key.len) :
    v.word child ++ (key.dropUnits k).letters = v.word node ++ key.letters ∧
      v.slots child = v.slots node ++ c.value := by
  have hkeq : k = c.key.len := le_antisymm m.le_child (not_lt.mp hge)
  refine ⟨?_, inv.slots_child m.child_at m.parent_eq⟩
  rw [inv.word_child m.child_at m.parent_eq, append_assoc, m.letters_split,
    take_of_length_le (by simp [hkeq])]

/-- `_match_prefix_helper` returns, and stops at the longest stored prefix with its slots. -/
theorem matchLoop_spec (now : Int) {fuel : Nat} :
    ∀ {s : RadixCache} {node : Nat} {nd : NodeCore} {key : RadixKey} {value : List Nat},
      TreeInv cfg.pageSize s.view → s.view.core node = some nd → cfg.pageSize ∣ key.len →
      value = s.view.slots node → key.len < fuel →
      ∃ s' last nl, matchLoop cfg now fuel s node key value = some (s', s'.view.slots last, last) ∧
        Reshape cfg s s' ∧ Stops cfg.pageSize s'.view
        (s.view.word node ++ key.letters) last nl := by
  induction fuel with
  | zero =>
    intro s node nd key value _ _ _ _ hfuel
    omega
  | succ fuel ih =>
    intro s node nd key value inv hnd hdvd hval hfuel
    obtain ⟨ndn, hndn, rfl⟩ := exists_node hnd
    unfold matchLoop
    by_cases hpos : 0 < key.len
    · rw [if_pos hpos]
      simp only [hndn, bind_eq_bind, bind_some]
      cases hlook : ndn.children.lookup (key.childKey cfg.pageSize) with
      | none =>
        exact ⟨s, node, _, by rw [hval], .refl, .of_rest inv hnd hdvd (.inr hlook)⟩
      | some child =>
        obtain ⟨c, k, m⟩ := childMatch_of_lookup inv hnd hpos hdvd hlook
        obtain ⟨cn, hcn, rfl⟩ := exists_node m.child_at
        have hdvd' : cfg.pageSize ∣ (key.dropUnits k).len := by
          rw [RadixKey.len_dropUnits]
          exact Nat.dvd_sub hdvd m.dvd
        -- the access time of the child is assigned first
        have hview : (s.modifyNode child (accessNode now)).view = s.view :=
          view_modifyNode _ _ (cosmetic_access now)
        have hcn₁ := nodes_modifyNode hcn (accessNode now)
        have hre : Reshape cfg s (s.modifyNode child (accessNode now)) :=
          .touch child (cosmetic_access now) .refl
        have hmatch : (accessNode now cn).key.match key cfg.pageSize = some k := m.match_eq
        simp only [hcn₁, bind_some, hmatch]
        generalize s.modifyNode child (accessNode now) = s₁ at hview hcn₁ hre ⊢
        rw [← hview] at inv hnd hval m ⊢
        by_cases hlt : k < (accessNode now cn).key.len
        · rw [if_pos hlt]
          obtain ⟨s₂, front, hs₂, hre₂, hfront, hword, hslots, hrest⟩ :=
            split_step cfg now inv hnd hcn₁ m hlt
          refine ⟨s₂, s₁.counter, front.toNodeCore, ?_, hre.trans hre₂, ?_⟩
          · simp only [hs₂, bind_some, hfront, hslots, hval]
          · rw [← hword]
            exact .of_rest (hre₂.inv inv) (core_at hfront) hdvd' hrest
        · rw [if_neg hlt]
          obtain ⟨hword, hslots⟩ := descend_step inv m hlt
          have hnext : value ++ cn.value = s₁.view.slots child := by rw [hval, hslots]
          obtain ⟨s', last, nl, heq, hre', hstop⟩ := ih inv m.child_at hdvd' hnext
            (by rw [RadixKey.len_dropUnits]; have := m.page_le; have := cfg.pageSize_pos; omega)
          rw [hword] at hstop
          exact ⟨s', last, nl, heq, hre.trans hre', hstop⟩
    · rw [if_neg hpos]
      exact ⟨s, node, _, by rw [hval], .refl, .of_rest inv hnd hdvd (.inl (by omega))⟩

/-- What the loop of `_insert_helper` has done when it stops: it consumed `d` units of the key,
the letters up to the node it reached. -/
structure Descent (cfg : CacheConfig) (s s' : RadixCache) (w : List Letter) (key : RadixKey)
    (node' : Nat) (nd' : TreeNode) (key' : RadixKey) (d : Nat) : Prop where
  reshape : Reshape cfg s s'
  node_at : s'.nodes node' = some nd'
  dvd : cfg.pageSize ∣ key'.len
  word : s'.view.word node' ++ key'.letters = w
  consumed : key'.len + d = key.len
  stop : key'.len = 0 ∨ nd'.children.lookup (key'.childKey cfg.pageSize) = none

theorem insertLoop_spec (now priority : Int) (chunked : Bool) {fuel : Nat} :
    ∀ {s : RadixCache} {node : Nat} {nd : NodeCore} {key : RadixKey} (value : List Nat)
      (total : Nat),
      TreeInv cfg.pageSize s.view → s.view.core node = some nd → cfg.pageSize ∣ key.len →
      key.len < fuel →
      ∃ s' node' nd' key' d, insertLoop cfg now priority chunked fuel s node key value total =
          some (s', node', key', value.drop d, total + d) ∧
        Descent cfg s s' (s.view.word node ++ key.letters) key node' nd' key' d := by
  induction fuel with
  | zero =>
    intro s node nd key value total _ _ _ hfuel
    omega
  | succ fuel ih =>
    intro s node nd key value total inv hnd hdvd hfuel
    obtain ⟨ndn, hndn, rfl⟩ := exists_node hnd
    unfold insertLoop
    by_cases hpos : 0 < key.len
    · rw [if_pos hpos]
      simp only [hndn, bind_eq_bind, bind_some]
      cases hlook : ndn.children.lookup (key.childKey cfg.pageSize) with
      | none =>
        exact ⟨s, node, ndn, key, 0, by simp, .refl, hndn, hdvd, rfl, by simp, .inr hlook⟩
      | some child =>
        obtain ⟨c, k, m⟩ := childMatch_of_lookup inv hnd hpos hdvd hlook
        obtain ⟨cn, hcn, rfl⟩ := exists_node m.child_at
        have hdvd' : cfg.pageSize ∣ (key.dropUnits k).len := by
          rw [RadixKey.len_dropUnits]
          exact Nat.dvd_sub hdvd m.dvd
        have hfuel' : (key.dropUnits k).len < fuel := by
          rw [RadixKey.len_dropUnits]
          have := m.page_le
          have := cfg.pageSize_pos
          omega
        have hview : (s.modifyNode child (accessNode now)).view = s.view :=
          view_modifyNode _ _ (cosmetic_access now)
        have hcn₁ := nodes_modifyNode hcn (accessNode now)
        have hre : Reshape cfg s (s.modifyNode child (accessNode now)) :=
          .touch child (cosmetic_access now) .refl
        have hmatch : (accessNode now cn).key.match key cfg.pageSize = some k := m.match_eq
        simp only [hcn₁, bind_some, hmatch]
        generalize s.modifyNode child (accessNode now) = s₁ at hview hcn₁ hre ⊢
        rw [← hview] at inv hnd m ⊢
        -- both branches go on from a node one match deeper; `next` is that node
        have hnext : ∀ {s₂ : RadixCache} {next : Nat} {nn : NodeCore}, Reshape cfg s₁ s₂ →
            s₂.view.core next = some nn →
            s₂.view.word next ++ (key.dropUnits k).letters = s₁.view.word node ++ key.letters →
            ∃ s' node' nd' key' d, insertLoop cfg now priority chunked fuel
                (s₂.modifyNode next (visitNode priority chunked)) next (key.dropUnits k)
                (value.drop k) (total + k) = some (s', node', key', value.drop d, total + d) ∧
              Descent cfg s s' (s₁.view.word node ++ key.letters) key node' nd' key' d := by
          intro s₂ next nn hre₂ hnn hword
          have hvisit : Reshape cfg s₂ (s₂.modifyNode next (visitNode priority chunked)) :=
            .touch next (cosmetic_visit priority chunked) .refl
          have hview₂ : (s₂.modifyNode next (visitNode priority chunked)).view = s₂.view :=
            view_modifyNode _ _ (cosmetic_visit priority chunked)
          obtain ⟨s', node', nd', key', d, heq, desc⟩ :=
            ih (s := s₂.modifyNode next (visitNode priority chunked)) (value.drop k) (total + k)
              (by rw [hview₂]; exact hre₂.inv inv) (by rw [hview₂]; exact hnn)
              hdvd' hfuel'
          refine ⟨s', node', nd', key', k + d, by rw [heq, drop_drop, Nat.add_assoc],
            hre.trans (hre₂.trans (hvisit.trans desc.reshape)), desc.node_at, desc.dvd, ?_, ?_,
            desc.stop⟩
          · rw [desc.word, hview₂, hword]
          · have := desc.consumed
            have := m.le_key
            rw [RadixKey.len_dropUnits] at *
            omega
        by_cases hlt : k < (accessNode now cn).key.len
        · rw [if_pos hlt]
          obtain ⟨s₂, front, hs₂, hre₂, hfront, hword, _, _⟩ :=
            split_step cfg now inv hnd hcn₁ m hlt
          simp only [hs₂, bind_some]
          exact hnext hre₂ (core_at hfront) hword
        · rw [if_neg hlt]
          exact hnext .refl m.child_at (descend_step inv m hlt).1
    · rw [if_neg hpos]
      exact ⟨s, node, ndn, key, 0, by simp, .refl, hndn, hdvd, rfl, by simp, .inl (by omega)⟩

end RadixCache

end Sglang.MemCache
