import Sglang.MemCache.RadixCacheOps

/-!
# Representation Invariant of the Radix Cache

Runs of a `RadixCache` under any sequence of its operations, with the list of outstanding
`inc_lock_ref` calls as ghost state, and the invariant that holds in every state of a run:

- the tree is well formed (`TreeInv`),
- the lock count of a node is the number of outstanding locks below it (`LocksOk`).

Every operation returns on every state of a run, so no assertion of the source fires.
-/

namespace Sglang.MemCache

open List Option Function
open Lib

namespace RadixCache

/-! ## Section 1: Runs -/

/-- The operations of a cache, with their arguments. -/
inductive CacheOp where
  | matchPrefix (now : Int) (key : RadixKey)
  | insert (now : Int) (key : RadixKey) (value : List Nat) (priority : Int) (chunked : Bool)
  | incLockRef (node : Nat)
  | decLockRef (node : Nat)
  | evict (order : EvictionOrder) (numTokens : Nat)
  | tagSessionLeaf (now : Int) (sid : Option String) (key : RadixKey) (node : Option Nat)
  | releaseRadixSession (iter : List Nat → List Nat) (sid : String)
  | reset (now : Int)

/-- A cache together with the nodes of the `inc_lock_ref` calls not yet matched. -/
structure CacheRun where
  cache : RadixCache
  locks : List Nat

/-- One operation of a run; `none` if it raises. -/
def CacheRun.step (cfg : CacheConfig) (r : CacheRun) : CacheOp → Option CacheRun
  | .matchPrefix now key => do
    let (s, _) ← r.cache.matchPrefix cfg now key
    some { r with cache := s }
  | .insert now key value priority chunked => do
    let (s, _) ← r.cache.insert cfg now key value priority chunked
    some { r with cache := s }
  | .incLockRef node => do
    let (s, _) ← r.cache.incLockRef cfg node
    some { cache := s, locks := node :: r.locks }
  | .decLockRef node => do
    let (s, _) ← r.cache.decLockRef cfg node
    some { cache := s, locks := r.locks.erase node }
  | .evict order numTokens => do
    let (s, _) ← r.cache.evict cfg order numTokens
    some { r with cache := s }
  | .tagSessionLeaf now sid key node => do
    let s ← r.cache.tagSessionLeaf cfg now sid key node
    some { r with cache := s }
  | .releaseRadixSession iter sid => do
    let (s, _) ← r.cache.releaseRadixSession cfg iter sid
    some { r with cache := s }
  | .reset now => some { cache := r.cache.reset cfg now, locks := [] }

/-- What callers owe: `insert` gets a slot for each unit it may store, `inc_lock_ref` gets a node
of the tree, and `dec_lock_ref` matches an outstanding `inc_lock_ref`. -/
def CacheOp.Valid (cfg : CacheConfig) (r : CacheRun) : CacheOp → Prop
  | .insert _ key value _ _ => (alignedKey cfg key).len ≤ value.length
  | .incLockRef node => (r.cache.nodes node).isSome
  | .decLockRef node => node ∈ r.locks
  | _ => True

instance (cfg : CacheConfig) (r : CacheRun) (op : CacheOp) : Decidable (op.Valid cfg r) := by
  cases op <;> unfold CacheOp.Valid <;> infer_instance

def CacheRun.exec (cfg : CacheConfig) : CacheRun → List CacheOp → Option CacheRun
  | r, [] => some r
  | r, op :: ops =>
    match r.step cfg op with
    | none => none
    | some r' => r'.exec cfg ops

/-- Every operation is valid in the state in which it is executed. -/
def CacheRun.ValidOps (cfg : CacheConfig) : CacheRun → List CacheOp → Prop
  | _, [] => True
  | r, op :: ops =>
    op.Valid cfg r ∧
      match r.step cfg op with
      | none => True
      | some r' => r'.ValidOps cfg ops

instance decidableValidOps (cfg : CacheConfig) :
    ∀ (r : CacheRun) (ops : List CacheOp), Decidable (r.ValidOps cfg ops)
  | _, [] => isTrue trivial
  | r, op :: ops =>
    match h : r.step cfg op with
    | none => decidable_of_iff (op.Valid cfg r) (by simp [CacheRun.ValidOps, h])
    | some r' =>
      have := decidableValidOps cfg r' ops
      decidable_of_iff (op.Valid cfg r ∧ r'.ValidOps cfg ops) (by simp [CacheRun.ValidOps, h])

/-- The state after `__init__`. -/
def CacheRun.start (cfg : CacheConfig) (now : Int) : CacheRun := ⟨RadixCache.init cfg now, []⟩

/-! ## Section 2: Lock counts -/

/-- Lock counts agree with the outstanding locks. A disabled cache never grows a tree. -/
structure LocksOk (cfg : CacheConfig) (v : TreeView) (locks : List Nat) : Prop where
  live : ∀ n ∈ locks, ∃ c, v.core n = some c
  count : ∀ {i c}, v.core i = some c → i ≠ v.rootNode →
    c.lockRef = (locks.countP fun n => decide (i ∈ v.path n) : Nat)
  disabled : cfg.disable = true → ∀ {i c}, v.core i = some c → i = v.rootNode

namespace LocksOk

variable {cfg : CacheConfig} {locks : List Nat}

theorem reshape {s t : RadixCache} (ok : LocksOk cfg s.view locks) (hre : Reshape cfg s t)
    (inv : TreeInv cfg.pageSize s.view) (hdis : cfg.disable = false) :
    LocksOk cfg t.view locks where
  live := by
    intro n hn
    obtain ⟨c, hc⟩ := ok.live n hn
    obtain ⟨c', hc', _⟩ := hre.keeps inv hc
    exact ⟨c', hc'⟩
  count := by
    intro i c' hi hroot
    obtain ⟨j, c, org⟩ := hre.origin inv hi
    have hj : j ≠ s.view.rootNode := by
      intro hj
      exact hroot ((org.root hj).trans hre.rootNode_eq.symm)
    rw [org.lock, ok.count org.source hj]
    congr 1
    refine countP_congr fun n hn => ?_
    obtain ⟨nm, hnm⟩ := ok.live n hn
    simp [org.path n nm hnm]
  disabled := by simp [hdis]

section

variable {v : TreeView} (ok : LocksOk cfg v locks) (inv : TreeInv cfg.pageSize v)
include ok inv

theorem addLeaf
    (hdis : cfg.disable = false) {node : Nat} {nd : NodeCore} {key : RadixKey} {value : List Nat}
    (hang : TreeInv.Hang cfg.pageSize v node nd key value) :
    LocksOk cfg (v.addLeaf cfg.pageSize node nd key value) locks where
  live := by
    intro n hn
    obtain ⟨c, hc⟩ := ok.live n hn
    obtain ⟨c', hc', _⟩ := inv.addLeaf_live hang hc
    exact ⟨c', hc'⟩
  count := by
    have hpath : ∀ n ∈ locks, (v.addLeaf cfg.pageSize node nd key value).path n = v.path n := by
      intro n hn
      obtain ⟨c, hc⟩ := ok.live n hn
      exact inv.path_addLeaf hang hc
    intro i c hi hroot
    rw [TreeInv.addLeaf_rootNode] at hroot
    rw [countP_congr (q := fun n => decide (i ∈ v.path n))
      (fun n hn => by rw [hpath n hn])]
    rcases TreeInv.addLeaf_cases hi with ⟨rfl, rfl⟩ | ⟨rfl, rfl⟩ | ⟨_, _, hi⟩
    · -- the fresh identity is on no old path
      symm
      simp only [NodeCore.leaf, Nat.cast_eq_zero, countP_eq_zero, decide_eq_true_eq]
      intro n hn hmem
      obtain ⟨c, hc⟩ := ok.live n hn
      obtain ⟨⟨cc, hcc⟩, _⟩ := inv.trie.path_mem (inv.path_up hc) _ hmem
      exact absurd (inv.bound _ _ hcc) (lt_irrefl _)
    · exact ok.count (c := nd) hang.node_at hroot
    · exact ok.count hi hroot
  disabled := by simp [hdis]

theorem not_mem_of_unlocked {x p : Nat} {xn : NodeCore} (hx : v.core x = some xn)
    (hp : xn.parent = some p) (hlock : xn.lockRef = 0) : x ∉ locks := by
  intro hmem
  have hcount := ok.count hx (inv.ne_root hx hp)
  rw [hlock] at hcount
  have hzero := countP_eq_zero.mp (by exact_mod_cast hcount.symm) x hmem
  rw [inv.path_child hx hp] at hzero
  simp at hzero

theorem removeLeaf
    {x p : Nat} {xn pn : NodeCore} (prune : TreeInv.Prune v x xn p pn) :
    LocksOk cfg (v.removeLeaf cfg.pageSize x xn p pn) locks := by
  have hx := ok.not_mem_of_unlocked inv prune.node_at prune.parent_eq prune.unlocked
  have hne : ∀ n ∈ locks, n ≠ x := by
    rintro n hn rfl
    exact hx hn
  refine ⟨?_, ?_, ?_⟩
  · intro n hn
    obtain ⟨c, hc⟩ := ok.live n hn
    obtain ⟨c', hc', _⟩ := TreeInv.removeLeaf_live prune (hne n hn) hc
    exact ⟨c', hc'⟩
  · intro i c hi hroot
    rw [TreeInv.removeLeaf_rootNode] at hroot
    obtain ⟨hix, c₀, hc₀, hlock⟩ := TreeInv.removeLeaf_old prune hi
    rw [← hlock, ok.count hc₀ hroot]
    congr 1
    refine countP_congr fun n hn => ?_
    obtain ⟨cn, hcn⟩ := ok.live n hn
    rw [inv.path_removeLeaf prune (hne n hn) hcn]
  · intro hdis i c hi
    obtain ⟨_, c₀, hc₀, _⟩ := TreeInv.removeLeaf_old prune hi
    rw [TreeInv.removeLeaf_rootNode]
    exact ok.disabled hdis hc₀

end

theorem relocked {s t : RadixCache} (ok : LocksOk cfg s.view locks) {d : Nat → Int}
    (rel : Relocked s t d) {locks' : List Nat} (hlive : ∀ n ∈ locks', ∃ c, s.view.core n = some c)
    (hcount : ∀ i, (locks.countP fun n => decide (i ∈ s.view.path n) : Nat) + d i =
      (locks'.countP fun n => decide (i ∈ s.view.path n) : Nat)) :
    LocksOk cfg t.view locks' := by
  have hroot : t.view.rootNode = s.view.rootNode := rel.root
  refine ⟨?_, ?_, ?_⟩
  · intro n hn
    obtain ⟨c, hc⟩ := hlive n hn
    exact ⟨_, by rw [rel.core, hc]; rfl⟩
  · intro i c hi hne
    rw [hroot] at hne
    rw [rel.core] at hi
    obtain ⟨c₀, hc₀, rfl⟩ := map_eq_some_iff.mp hi
    rw [rel.path_eq, ← hcount i, ← ok.count hc₀ hne]
  · intro hdis i c hi
    rw [rel.core] at hi
    obtain ⟨c₀, hc₀, _⟩ := map_eq_some_iff.mp hi
    rw [hroot]
    exact ok.disabled hdis hc₀

theorem locked_of_mem {v : TreeView} (ok : LocksOk cfg v locks) (inv : TreeInv cfg.pageSize v)
    {n : Nat} (hn : n ∈ locks) {m : Nat} (hm : m ∈ v.path n) {nm : NodeCore}
    (hnm : v.core m = some nm) : 1 ≤ nm.lockRef := by
  obtain ⟨c, hc⟩ := ok.live n hn
  have hroot := (inv.trie.path_mem (inv.path_up hc) m hm).2.1
  rw [ok.count hnm hroot]
  have : 0 < locks.countP fun n => decide (m ∈ v.path n) :=
    countP_pos_iff.mpr ⟨n, hn, by simpa using hm⟩
  omega

end LocksOk

/-! ## Section 3: Every operation keeps the invariant -/

/-- The invariant of runs. -/
structure RunInv (cfg : CacheConfig) (r : CacheRun) : Prop where
  tree : TreeInv cfg.pageSize r.cache.view
  locks : LocksOk cfg r.cache.view r.locks

theorem treeInv_reset (cfg : CacheConfig) (now : Int) (s : RadixCache) :
    TreeInv cfg.pageSize (s.reset cfg now).view := by
  -- the root is the only node left, so every clause is one about `newRoot`
  have hcore : ∀ {i n}, (s.reset cfg now).view.core i = some n →
      i = s.counter ∧ n = (newRoot now).toNodeCore := by
    intro i n hi
    by_cases h : i = s.counter
    · subst h
      simp [reset, view] at hi
      exact ⟨rfl, hi.symm⟩
    · simp [reset, view, update_of_ne h] at hi
  have hroot : (s.reset cfg now).view.core s.counter = some (newRoot now).toNodeCore := by
    simp [reset, view]
  have htrie : ∀ {i c}, (s.reset cfg now).view.trie i = some c →
      i = s.counter ∧ c = (newRoot now).cell := by
    intro i c hi
    obtain ⟨n, hn, rfl⟩ := skeleton_some hi
    obtain ⟨rfl, rfl⟩ := hcore hn
    exact ⟨rfl, rfl⟩
  have hsum : ∀ f : Option NodeCore → Int, f none = 0 →
      f (some (newRoot now).toNodeCore) = 0 →
      nodeSum f (s.reset cfg now).view.core (s.reset cfg now).view.counter = 0 := by
    intro f hnone hsome
    unfold nodeSum
    refine Finset.sum_eq_zero fun i _ => ?_
    cases hi : (s.reset cfg now).view.core i with
    | none => exact hnone
    | some n => rw [(hcore hi).2, hsome]
  have hword : ∀ n, PageTrie.spell s.counter (s.reset cfg now).view.trie (s.counter + 1)
      (PageTrie.labelOf (s.reset cfg now).view.trie) n = (s.reset cfg now).view.word n :=
    fun _ => rfl
  have hletters : (newRoot now).key.letters = [] := rfl
  refine
    { trie :=
        { page_pos := cfg.pageSize_pos
          root_cell := ⟨_, skeleton_at hroot, rfl, hletters⟩
          spells := ⟨?_, ?_⟩
          filed := ?_
          label_ne := ?_
          label_dvd := ?_
          child_cell := ?_ }
      fresh := ?_
      value_len := ?_
      lock_nonneg := ?_
      root_lock := ?_
      evictable_eq := (hsum _ rfl (by simp [evictableLen, newRoot])).symm
      protected_eq := (hsum _ rfl (by simp [protectedLen, newRoot, RadixKey.len,
        RadixKey.rawLen])).symm
      leaves_nodup := nodup_nil
      leaf_ok := ?_ }
  · exact by simp [TreeView.word, PageTrie.spell, PageTrie.WellFormed.climb_root]
  · intro n c p hc hp
    obtain ⟨_, rfl⟩ := htrie hc
    cases hp
  · intro n c hc hne
    exact absurd (htrie hc).1 hne
  · intro n c hc hne
    exact absurd (htrie hc).1 hne
  · intro n c hc
    obtain ⟨_, rfl⟩ := htrie hc
    simp [TreeLinks.cell, hletters]
  · intro p pc k n hp hk
    obtain ⟨_, rfl⟩ := htrie hp
    simp [TreeLinks.cell, newRoot] at hk
  · intro i n hi
    obtain ⟨rfl, _⟩ := hcore hi
    exact Nat.lt_succ_self _
  · intro i n hi
    obtain ⟨_, rfl⟩ := hcore hi
    rfl
  · intro i n hi
    obtain ⟨_, rfl⟩ := hcore hi
    simp [newRoot]
  · intro n hi
    obtain ⟨_, rfl⟩ := hcore hi
    rfl
  · intro i
    constructor
    · intro h
      simp [reset, view] at h
    · rintro ⟨n, hn, hlock, _⟩
      obtain ⟨_, rfl⟩ := hcore hn
      simp [newRoot] at hlock

theorem runInv_reset (cfg : CacheConfig) (now : Int) (s : RadixCache) :
    RunInv cfg ⟨s.reset cfg now, []⟩ := by
  have inv := treeInv_reset cfg now s
  have honly : ∀ {i c}, (s.reset cfg now).view.core i = some c →
      i = (s.reset cfg now).view.rootNode := by
    intro i c hi
    by_contra hne
    have hne : i ≠ s.counter := hne
    simp [reset, view, update_of_ne hne] at hi
  refine ⟨inv, ⟨by simp, ?_, fun _ => honly⟩⟩
  intro i c hi hne
  exact absurd (honly hi) hne

variable {cfg : CacheConfig} {r : CacheRun}

section

variable {s t : RadixCache} {locks : List Nat} (h : RunInv cfg ⟨s, locks⟩)
include h

theorem RunInv.quiet (hq : Quiet s t) : RunInv cfg ⟨t, locks⟩ := by
  obtain ⟨htree, hlocks⟩ := h
  refine ⟨?_, ?_⟩ <;> simp only [hq.view] at *
  · exact htree
  · exact hlocks

theorem RunInv.reshape (hdis : cfg.disable = false) (hre : Reshape cfg s t) :
    RunInv cfg ⟨t, locks⟩ :=
  ⟨hre.inv h.tree, h.locks.reshape hre h.tree hdis⟩

theorem RunInv.inserted (hdis : cfg.disable = false) {key : RadixKey} {value : List Nat}
    {res : Option InsertResult} (hins : Inserted cfg s key value t res) :
    RunInv cfg ⟨t, locks⟩ := by
  cases hins with
  | found hre _ _ => exact h.reshape hdis hre
  | added hre _ hang _ _ _ hview hev =>
    have h₁ := h.reshape hdis hre
    have hview' := (view_recordStoreEvent hev).trans hview
    refine ⟨?_, ?_⟩
    · rw [hview']
      exact h₁.tree.addLeaf hang
    · rw [hview']
      exact h₁.locks.addLeaf h₁.tree hdis hang

end

/-- One operation, valid in a state that satisfies the invariant, returns a state that does. -/
theorem RunInv.step (h : RunInv cfg r) {op : CacheOp}
    (hvalid : op.Valid cfg r) : ∃ r', r.step cfg op = some r' ∧ RunInv cfg r' := by
  obtain ⟨s, locks⟩ := r
  have htree : TreeInv cfg.pageSize s.view := h.tree
  cases op with
  | matchPrefix now key =>
    cases hdis : cfg.disable with
    | true =>
      exact ⟨_, by simp [CacheRun.step, matchPrefix_disabled now s hdis], h⟩
    | false =>
      obtain ⟨t, last, nl, heq, hre, _⟩ := matchPrefix_spec now htree hdis key
      exact ⟨⟨t, locks⟩, by simp [CacheRun.step, heq], h.reshape hdis hre⟩
  | insert now key value priority chunked =>
    cases hdis : cfg.disable with
    | true => exact ⟨⟨s, locks⟩, by simp [CacheRun.step, insert, hdis], h⟩
    | false =>
      obtain ⟨t, res, heq, hins⟩ := insert_spec now priority chunked htree hdis hvalid
      exact ⟨⟨t, locks⟩, by simp [CacheRun.step, heq], h.inserted hdis hins⟩
  | incLockRef node =>
    obtain ⟨nd, hnd⟩ := isSome_iff_exists.mp hvalid
    have hnode := core_at hnd
    have hlive : ∀ n ∈ node :: locks, ∃ c, s.view.core n = some c := by
      intro n hn
      rcases mem_cons.mp hn with rfl | hn
      · exact ⟨_, hnode⟩
      · exact h.locks.live n hn
    cases hdis : cfg.disable with
    | true =>
      -- the only node is the root, whose path is empty
      refine ⟨⟨s, node :: locks⟩, by simp [CacheRun.step, incLockRef, hdis], htree, hlive, ?_,
        h.locks.disabled⟩
      intro i c hi hne
      exact absurd (h.locks.disabled hdis hi) hne
    | false =>
      obtain ⟨t, delta, heq, inv', rel⟩ := incLockRef_spec htree hdis hnode
      refine ⟨⟨t, node :: locks⟩, by simp [CacheRun.step, heq], inv', ?_⟩
      refine LocksOk.relocked h.locks rel hlive fun i => ?_
      by_cases hi : i ∈ s.view.path node <;> simp [hi]
  | decLockRef node =>
    have hmem : node ∈ locks := hvalid
    obtain ⟨nc, hnc⟩ := h.locks.live node hmem
    have hlive : ∀ n ∈ locks.erase node, ∃ c, s.view.core n = some c :=
      fun n hn => h.locks.live n (mem_of_mem_erase hn)
    cases hdis : cfg.disable with
    | true =>
      refine ⟨⟨s, locks.erase node⟩, by simp [CacheRun.step, decLockRef, hdis], htree, hlive, ?_,
        h.locks.disabled⟩
      intro i c hi hne
      exact absurd (h.locks.disabled hdis hi) hne
    | false =>
      obtain ⟨t, delta, heq, inv', rel⟩ := decLockRef_spec htree hdis hnc
        fun m hm nm hnm => h.locks.locked_of_mem htree hmem hm hnm
      refine ⟨⟨t, locks.erase node⟩, by simp [CacheRun.step, heq], inv', ?_⟩
      refine LocksOk.relocked h.locks rel hlive fun i => ?_
      have hperm := (perm_cons_erase hmem).countP_eq
        (fun n => decide (i ∈ s.view.path n))
      rw [hperm]
      by_cases hi : i ∈ s.view.path node <;> simp [hi]
  | evict order numTokens =>
    obtain ⟨t, res, acc, heq, hlocks, inv', _⟩ := evict_rule cfg order numTokens
      (fun s _ => LocksOk cfg s.view locks)
      (fun hP inv _ _ prune _ hview hev => by
        rw [view_recordRemoveEvent hev, hview]
        exact hP.removeLeaf inv prune) h.locks htree
    exact ⟨⟨t, locks⟩, by simp [CacheRun.step, heq], inv', hlocks⟩
  | tagSessionLeaf now sid key node =>
    obtain ⟨s', t, heq, hre, hq, hsame⟩ := tagSessionLeaf_spec now htree sid key node
    refine ⟨⟨s', locks⟩, by simp [CacheRun.step, heq], ?_⟩
    cases hdis : cfg.disable with
    | true =>
      rw [hsame hdis] at hq
      exact h.quiet hq
    | false => exact (h.reshape hdis hre).quiet hq
  | releaseRadixSession iter sid =>
    obtain ⟨t, freed, heq, hlocks, inv'⟩ := releaseRadixSession_rule cfg sid iter
      (fun s _ => LocksOk cfg s.view locks)
      (fun hq hP => by rw [hq.view]; exact hP)
      (fun hP inv _ _ prune _ hview _ => by
        rw [hview]
        exact hP.removeLeaf inv prune) h.locks htree
    exact ⟨⟨t, locks⟩, by simp [CacheRun.step, heq], inv', hlocks⟩
  | reset now => exact ⟨_, rfl, runInv_reset cfg now s⟩

theorem RunInv.exec (h : RunInv cfg r) {ops : List CacheOp}
    (hvalid : r.ValidOps cfg ops) : ∃ r', r.exec cfg ops = some r' ∧ RunInv cfg r' := by
  induction ops generalizing r with
  | nil => exact ⟨r, rfl, h⟩
  | cons op ops ih =>
    obtain ⟨r₁, heq, h₁⟩ := h.step hvalid.1
    have hrest := hvalid.2
    rw [heq] at hrest
    obtain ⟨r', hexec, h'⟩ := ih h₁ hrest
    exact ⟨r', by simp only [CacheRun.exec, heq, hexec], h'⟩

/-! ## Section 4: The representation invariant in the words of the source -/

/-- Sum of `len(node.key)` over the nodes of the cache that satisfy `p`. -/
def keyLenWhere (s : RadixCache) (p : Nat → TreeNode → Bool) : Int :=
  ∑ i ∈ Finset.range s.counter,
    match s.nodes i with
    | none => 0
    | some n => if p i n then (n.key.len : Int) else 0

/-- Node `i` lies on the way from node `n` to the root: `n` is in the subtree of `i`. -/
def InSubtree (s : RadixCache) (i n : Nat) : Bool := decide (i ∈ s.view.path n)

/-- What holds of nodes, counters and leaf set in every state of a run. -/
structure Represents (ps : Nat) (r : CacheRun) : Prop where
  /-- Identities are drawn from the counter, so sums below the counter cover every node. -/
  ids : ∀ {i n}, r.cache.nodes i = some n → i < r.cache.counter
  key_pos : ∀ {i n}, r.cache.nodes i = some n → i ≠ r.cache.rootNode → 0 < n.key.len
  key_dvd : ∀ {i n}, r.cache.nodes i = some n → ps ∣ n.key.len
  value_len : ∀ {i n}, r.cache.nodes i = some n → n.value.length = n.key.len
  filed : ∀ {i n}, r.cache.nodes i = some n → i ≠ r.cache.rootNode →
    ∃ p pn, n.parent = some p ∧ r.cache.nodes p = some pn ∧
      pn.children.lookup (n.key.childKey ps) = some i
  child : ∀ {p pn k i}, r.cache.nodes p = some pn → pn.children.lookup k = some i →
    ∃ n, r.cache.nodes i = some n ∧ n.parent = some p ∧ n.key.childKey ps = k
  siblings : ∀ {p i j ni nj}, r.cache.nodes i = some ni → r.cache.nodes j = some nj →
    ni.parent = some p → nj.parent = some p → i ≠ j →
    ni.key.letters.take ps ≠ nj.key.letters.take ps
  lock_count : ∀ {i n}, r.cache.nodes i = some n → i ≠ r.cache.rootNode →
    n.lockRef = (r.locks.countP (r.cache.InSubtree i) : Nat)
  evictable_size : r.cache.evictableSize = r.cache.keyLenWhere fun _ n => n.lockRef = 0
  protected_size : r.cache.protectedSize =
    r.cache.keyLenWhere fun i n => i ≠ r.cache.rootNode ∧ 0 < n.lockRef
  leaves_nodup : r.cache.evictableLeaves.Nodup
  leaves : ∀ i, i ∈ r.cache.evictableLeaves ↔ i ≠ r.cache.rootNode ∧
    ∃ n, r.cache.nodes i = some n ∧ n.lockRef = 0 ∧ n.children.entries = []

private theorem siblings_differ {ps : Nat} {v : TreeView} (inv : TreeInv ps v) {p i j : Nat}
    {ni nj : NodeCore} (hi : v.core i = some ni) (hj : v.core j = some nj)
    (hpi : ni.parent = some p) (hpj : nj.parent = some p) (hne : i ≠ j) :
    ni.key.letters.take ps ≠ nj.key.letters.take ps := by
  intro heq
  obtain ⟨pn, hpn⟩ := inv.parent_live hi hpi
  have hfi := inv.trie.filed_at (TreeInv.trie_at hi) hpi (TreeInv.trie_at hpn)
  have hfj := inv.trie.filed_at (TreeInv.trie_at hj) hpj (TreeInv.trie_at hpn)
  simp only [TreeLinks.cell] at hfi hfj
  rw [heq, hfj] at hfi
  cases hfi
  exact hne rfl

theorem RunInv.represents (h : RunInv cfg r) :
    Represents cfg.pageSize r := by
  obtain ⟨s, locks⟩ := r
  have inv : TreeInv cfg.pageSize s.view := h.tree
  -- both sizes are sums over the live nodes
  have hsum : ∀ (f : Option NodeCore → Int) (p : Nat → TreeNode → Bool), f none = 0 →
      (∀ i n, s.nodes i = some n → f (some n.toNodeCore) = if p i n then (n.key.len : Int) else 0) →
      nodeSum f s.view.core s.view.counter = s.keyLenWhere p := by
    intro f p hnone hsome
    unfold nodeSum keyLenWhere
    refine Finset.sum_congr rfl fun i _ => ?_
    cases hi : s.nodes i with
    | none => simp [view, hi, hnone]
    | some n => simpa [view, hi] using hsome i n hi
  refine
    { ids := fun hi => inv.fresh (core_at hi)
      key_pos := ?_
      key_dvd := ?_
      value_len := fun hi => inv.value_len (core_at hi)
      filed := ?_
      child := ?_
      siblings := fun hi hj => siblings_differ inv (core_at hi) (core_at hj)
      lock_count := fun hi hne => h.locks.count (core_at hi) hne
      evictable_size := ?_
      protected_size := ?_
      leaves_nodup := inv.leaves_nodup
      leaves := ?_ }
  · intro i n hi hne
    have := inv.trie.label_length_pos (TreeInv.trie_at (core_at hi)) hne
    simpa [TreeLinks.cell] using this
  · intro i n hi
    have := inv.trie.label_dvd (TreeInv.trie_at (core_at hi))
    simpa [TreeLinks.cell] using this
  · intro i n hi hne
    obtain ⟨p, pc, hp, hpc⟩ := inv.exists_parent (core_at hi) hne
    obtain ⟨pn, hpn, rfl⟩ := exists_node hpc
    exact ⟨p, pn, hp, hpn, inv.lookup_childKey (core_at hi) hp hpc⟩
  · intro p pn k i hpn hk
    obtain ⟨c, hc, hpar, hkey⟩ := inv.of_lookup (core_at hpn) hk
    obtain ⟨n, hn, rfl⟩ := exists_node hc
    exact ⟨n, hn, hpar, hkey⟩
  · refine inv.evictable_eq.trans (hsum _ _ rfl ?_)
    intro i n _
    simp [evictableLen]
  · refine inv.protected_eq.trans (hsum _ _ rfl ?_)
    intro i n hi
    have hnonneg := inv.lock_nonneg (core_at hi)
    by_cases hroot : i = s.rootNode
    · obtain ⟨rn, hrn, _, hlen⟩ := inv.root_live
      subst hroot
      have hcore := core_at hi
      rw [show s.rootNode = s.view.rootNode from rfl, hrn] at hcore
      cases hcore
      simp [protectedLen, hlen]
    · have hiff : n.lockRef = 0 ↔ ¬ 0 < n.lockRef := by omega
      by_cases hz : n.lockRef = 0 <;> simp [protectedLen, hroot, hz]
      omega
  · intro i
    constructor
    · intro hi
      obtain ⟨c, hc, hlock, hempty⟩ := (inv.leaf_ok i).mp hi
      obtain ⟨n, hn, rfl⟩ := exists_node hc
      exact ⟨inv.ne_root_of_unlocked hc hlock, n, hn, hlock, hempty⟩
    · rintro ⟨_, n, hn, hlock, hempty⟩
      exact (inv.leaf_ok i).mpr ⟨_, core_at hn, hlock, hempty⟩

/-- In every state that any valid sequence of operations reaches from `reset`, the representation
invariant holds; and every operation of the sequence returns. -/
theorem representation_invariant (cfg : CacheConfig) (now : Int) (ops : List CacheOp)
    (hvalid : (CacheRun.start cfg now).ValidOps cfg ops) :
    ∃ r, (CacheRun.start cfg now).exec cfg ops = some r ∧ Represents cfg.pageSize r := by
  obtain ⟨r, hexec, h⟩ := (runInv_reset cfg now _).exec hvalid
  exact ⟨r, hexec, h.represents⟩

/-- A run with a cut under an outstanding lock: two keys share their first page. -/
def sampleConfig : CacheConfig := { pageSize := 2, pageSize_pos := Nat.two_pos }

def sampleOps : List CacheOp :=
  [.insert 1 { tokenIds := [1, 2, 3, 4] } [2, 3, 4, 5] 0 false,
    .incLockRef 1,
    .matchPrefix 2 { tokenIds := [1, 2, 9, 9, 9] },
    .insert 3 { tokenIds := [1, 2, 5, 6] } [6, 7, 8, 9] 0 false,
    .decLockRef 1,
    .evict (EvictionStrategy.order .lru) 3]

theorem representation_invariant_sample :
    ∃ r, (CacheRun.start sampleConfig 0).exec sampleConfig sampleOps = some r ∧
      Represents 2 r :=
  representation_invariant sampleConfig 0 sampleOps (by decide +kernel)

end RadixCache

end Sglang.MemCache
