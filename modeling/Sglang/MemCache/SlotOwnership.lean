import Sglang.MemCache.KvState

/-!
# Who Holds a Slot

A slot of the pool is held by the allocator, by a node of the tree, or by a live request. This
module says what each of them holds and how single operations move slots between them.

- `treeSlots`: what the nodes hold, and how each mutation of the tree changes it,
- `Allocator.slots`: what the allocator holds; `slots_free` moves the pages of a row to it,
- `KvInv`: together they hold the pool, and requests agree with the tree.
-/

namespace Sglang.MemCache

open List Option
open Lib

/-! ## Section 1: The slots of a tree -/

def nodeSlots : Option NodeCore → Multiset Nat
  | none => 0
  | some n => n.value

def TreeView.treeSlots (v : TreeView) : Multiset Nat := nodeSum nodeSlots v.core v.counter

def TreeView.WholePages (ps : Nat) (v : TreeView) : Prop :=
  ∀ ⦃i n⦄, v.core i = some n → ∃ pgs, n.value = expand ps pgs

/-- The nodes `locks` are there, with the words and slots they had. -/
def TreeView.Keeps (locks : List Nat) (v v' : TreeView) : Prop :=
  ∀ n ∈ locks, (∃ c, v.core n = some c) →
    (∃ c, v'.core n = some c) ∧ v'.word n = v.word n ∧ v'.slots n = v.slots n

namespace TreeView.Keeps

variable {locks : List Nat} {u v w : TreeView}

theorem refl : Keeps locks v v := fun _ _ hc => ⟨hc, rfl, rfl⟩

theorem trans (h : Keeps locks u v) (h' : Keeps locks v w) : Keeps locks u w := by
  intro n hn hc
  obtain ⟨hc₁, hw₁, hs₁⟩ := h n hn hc
  obtain ⟨hc₂, hw₂, hs₂⟩ := h' n hn hc₁
  exact ⟨hc₂, hw₂.trans hw₁, hs₂.trans hs₁⟩

end TreeView.Keeps

theorem expand_split {ps : Nat} (hps : 0 < ps) (pgs : List Nat) {k : Nat} (hk : ps ∣ k) :
    (∃ qs, (expand ps pgs).take k = expand ps qs) ∧ ∃ qs,
    (expand ps pgs).drop k = expand ps qs := by
  obtain ⟨m, rfl⟩ := hk
  rw [Nat.mul_comm]
  have h : RowPages ps (expand ps pgs) pgs := RowPages.of_expand hps
  by_cases hm : m * ps ≤ (expand ps pgs).length
  · refine ⟨⟨_, h.take hps hm⟩, pgs.drop m, ?_⟩
    refine (h.drop hps hm).eq_expand hps ?_
    rw [length_drop, expand_length, ← Nat.sub_mul]
    exact Nat.dvd_mul_left _ _
  · exact ⟨⟨pgs, take_of_length_le (by omega)⟩, [],
      by rw [drop_of_length_le (by omega), expand_nil]⟩

namespace RadixCache

variable {cfg : CacheConfig} {locks : List Nat}

/-- The nodes may have been cut, but all are there and hold the same slots together. -/
structure SameSlots (cfg : CacheConfig) (s t : RadixCache) : Prop where
  slots : t.view.treeSlots = s.view.treeSlots
  whole : s.view.WholePages cfg.pageSize → t.view.WholePages cfg.pageSize
  keeps : ∀ locks, s.view.Keeps locks t.view

variable {s t u : RadixCache}

theorem SameSlots.trans (h : SameSlots cfg s t) (h' : SameSlots cfg t u) :
    SameSlots cfg s u :=
  ⟨h'.slots.trans h.slots, fun hw => h'.whole (h.whole hw), fun l => (h.keeps l).trans (h'.keeps l)⟩

theorem Quiet.sameSlots (hq : Quiet s t) : SameSlots cfg s t := by
  refine ⟨?_, ?_, ?_⟩ <;> rw [hq.view]
  · exact id
  · exact fun _ => .refl

theorem Reshape.sameSlots (hre : Reshape cfg s t)
    (inv : TreeInv cfg.pageSize s.view) : SameSlots cfg s t := by
  have hkeeps : ∀ locks, s.view.Keeps locks t.view := by
    rintro locks n _ ⟨c, hc⟩
    obtain ⟨c', hc', _, hword, hslots⟩ := hre.keeps inv hc
    exact ⟨⟨c', hc'⟩, hword, hslots⟩
  suffices h : t.view.treeSlots = s.view.treeSlots ∧
      (s.view.WholePages cfg.pageSize → t.view.WholePages cfg.pageSize) from ⟨h.1, h.2, hkeeps⟩
  clear hkeeps
  induction hre with
  | refl => exact ⟨rfl, id⟩
  | touch i hf _ ih =>
    rw [view_modifyNode _ _ hf]
    exact ih
  | @split t u now child p k x c pn hc cut heq hre ih =>
    obtain ⟨hslots, hwhole⟩ := ih
    have inv' := hre.inv inv
    rw [(view_split hc cut heq).2]
    refine ⟨?_, ?_⟩
    · rw [← hslots]
      refine inv'.nodeSum_splitAt (f := nodeSlots) cut rfl rfl ?_
      simp only [nodeSlots, NodeCore.front, NodeCore.back, Multiset.coe_add,
        take_append_drop]
    · intro hs i n hi
      have hw : ∀ ⦃j m⦄, t.view.core j = some m → ∃ pgs, m.value = expand cfg.pageSize pgs :=
        hwhole hs
      obtain ⟨pgs, hpgs⟩ := hw cut.child_at
      obtain ⟨⟨qs, hqs⟩, qs', hqs'⟩ := expand_split cfg.pageSize_pos pgs cut.dvd
      rcases inv'.splitAt_cases cut hi with ⟨_, rfl⟩ | ⟨_, rfl⟩ | ⟨_, rfl⟩ | ⟨_, _, _, hi⟩
      · exact ⟨qs, by simp only [NodeCore.front, hpgs, hqs]⟩
      · exact ⟨qs', by simp only [NodeCore.back, hpgs, hqs']⟩
      · exact hw (m := pn) cut.parent_at
      · exact hw hi

theorem Relocked.sameSlots {d : Nat → Int} (rel : Relocked s t d) :
    SameSlots cfg s t := by
  have hcounter : t.view.counter = s.view.counter := rel.counter
  refine ⟨?_, ?_, ?_⟩
  · unfold TreeView.treeSlots
    rw [hcounter]
    refine nodeSum_congr fun i _ => ?_
    rw [rel.core]
    cases s.view.core i <;> rfl
  · intro hwhole i n hi
    rw [rel.core] at hi
    obtain ⟨n₀, hn₀, rfl⟩ := map_eq_some_iff.mp hi
    exact hwhole (n := n₀) hn₀
  · rintro locks n _ ⟨c, hc⟩
    exact ⟨⟨_, by rw [rel.core, hc]; rfl⟩, by rw [rel.word_eq], by rw [rel.slots_eq]⟩

theorem RunInv.lock (h : RunInv cfg ⟨s, locks⟩) {n : Nat} {c : NodeCore}
    (hn : s.view.core n = some c) :
    ∃ t delta, s.incLockRef cfg n = some (t, delta) ∧ RunInv cfg ⟨t, n :: locks⟩ ∧
      SameSlots cfg s t := by
  obtain ⟨nd, hnd, _⟩ := exists_node hn
  have hok : CacheOp.Valid cfg ⟨s, locks⟩ (.incLockRef n) := by
    change (s.nodes n).isSome
    rw [hnd]
    rfl
  obtain ⟨r', hstep, hr'⟩ := h.step hok
  cases hdis : cfg.disable with
  | true =>
    have heq : s.incLockRef cfg n = some (s, 0) := by simp [incLockRef, hdis]
    simp only [CacheRun.step, heq, bind_eq_bind, bind_some,
      Option.some.injEq] at hstep
    rw [← hstep] at hr'
    exact ⟨s, 0, heq, hr', (Quiet.refl s).sameSlots⟩
  | false =>
    obtain ⟨t, delta, heq, _, rel⟩ := incLockRef_spec h.tree hdis hn
    have heq : s.incLockRef cfg n = some (t, delta) := heq
    simp only [CacheRun.step, heq, bind_eq_bind, bind_some,
      Option.some.injEq] at hstep
    rw [← hstep] at hr'
    exact ⟨t, delta, heq, hr', rel.sameSlots⟩

theorem RunInv.unlock (h : RunInv cfg ⟨s, locks⟩) {n : Nat} (hn : n ∈ locks) :
    ∃ t delta, s.decLockRef cfg n = some (t, delta) ∧ RunInv cfg ⟨t, locks.erase n⟩ ∧
      SameSlots cfg s t := by
  have hok : CacheOp.Valid cfg ⟨s, locks⟩ (.decLockRef n) := hn
  obtain ⟨r', hstep, hr'⟩ := h.step hok
  cases hdis : cfg.disable with
  | true =>
    have heq : s.decLockRef cfg n = some (s, 0) := by simp [decLockRef, hdis]
    simp only [CacheRun.step, heq, bind_eq_bind, bind_some,
      Option.some.injEq] at hstep
    rw [← hstep] at hr'
    exact ⟨s, 0, heq, hr', (Quiet.refl s).sameSlots⟩
  | false =>
    obtain ⟨c, hc⟩ := h.locks.live n hn
    obtain ⟨t, delta, heq, _, rel⟩ := decLockRef_spec h.tree hdis hc
      fun m hm nm hnm => h.locks.locked_of_mem h.tree hn hm hnm
    have heq : s.decLockRef cfg n = some (t, delta) := heq
    simp only [CacheRun.step, heq, bind_eq_bind, bind_some,
      Option.some.injEq] at hstep
    rw [← hstep] at hr'
    exact ⟨t, delta, heq, hr', rel.sameSlots⟩

theorem RunInv.tag (now : Int) (h : RunInv cfg ⟨s, locks⟩)
    (hdis : cfg.disable = false) (sid : Option String) (key : RadixKey) (node : Option Nat) :
    ∃ t, s.tagSessionLeaf cfg now sid key node = some t ∧ RunInv cfg ⟨t, locks⟩ ∧
      SameSlots cfg s t := by
  obtain ⟨t, u, heq, hre, hq, _⟩ := tagSessionLeaf_spec now h.tree sid key node
  exact ⟨t, heq, (h.reshape hdis hre).quiet hq, (hre.sameSlots h.tree).trans hq.sameSlots⟩

theorem slots_whole {v : TreeView} (inv : TreeInv cfg.pageSize v)
    (hwhole : v.WholePages cfg.pageSize) {i : Nat} {n : NodeCore} (hi : v.core i = some n) :
    ∃ pgs, v.slots i = expand cfg.pageSize pgs := by
  refine inv.trie.induction_on (P := fun i => ∃ pgs, v.slots i = expand cfg.pageSize pgs) ?_ ?_
    i _ (TreeInv.trie_at hi)
  · exact ⟨[], by rw [expand_nil]; exact inv.slots_root⟩
  · rintro j cj p hj hp _ ⟨pgs, hpgs⟩
    obtain ⟨nj, hnj, rfl⟩ := skeleton_some hj
    obtain ⟨qs, hqs⟩ := hwhole hnj
    exact ⟨pgs ++ qs, by rw [inv.slots_child hnj hp, hpgs, hqs, expand_append cfg.pageSize_pos]⟩

theorem treeSlots_addLeaf {v : TreeView} (inv : TreeInv cfg.pageSize v) {node : Nat}
    {nd : NodeCore} {key : RadixKey} {value : List Nat}
    (hang : TreeInv.Hang cfg.pageSize v node nd key value)
    (hwhole : v.WholePages cfg.pageSize) (hvalue : ∃ pgs, value = expand cfg.pageSize pgs) :
    (v.addLeaf cfg.pageSize node nd key value).treeSlots = v.treeSlots + value ∧
      (v.addLeaf cfg.pageSize node nd key value).WholePages cfg.pageSize ∧
      ∀ locks, v.Keeps locks (v.addLeaf cfg.pageSize node nd key value) := by
  refine ⟨?_, ?_, ?_⟩
  · unfold TreeView.treeSlots
    rw [TreeInv.addLeaf_counter]
    exact inv.nodeSum_addLeaf (f := nodeSlots) hang rfl rfl
  · intro i n hi
    rcases TreeInv.addLeaf_cases hi with ⟨_, rfl⟩ | ⟨_, rfl⟩ | ⟨_, _, hi⟩
    · exact hvalue
    · exact hwhole (n := nd) hang.node_at
    · exact hwhole hi
  · rintro locks n _ ⟨c, hc⟩
    obtain ⟨c', hc', _⟩ := inv.addLeaf_live hang hc
    exact ⟨⟨c', hc'⟩, inv.word_addLeaf hang hc, inv.slots_addLeaf hang hc⟩

theorem treeSlots_removeLeaf {v : TreeView} (inv : TreeInv cfg.pageSize v) {x p : Nat}
    {xn pn : NodeCore} (prune : TreeInv.Prune v x xn p pn) (hx : x ∉ locks)
    (hwhole : v.WholePages cfg.pageSize) :
    (v.removeLeaf cfg.pageSize x xn p pn).treeSlots + xn.value = v.treeSlots ∧
      (v.removeLeaf cfg.pageSize x xn p pn).WholePages cfg.pageSize ∧
      v.Keeps locks (v.removeLeaf cfg.pageSize x xn p pn) := by
  refine ⟨?_, ?_, ?_⟩
  · unfold TreeView.treeSlots
    rw [TreeInv.removeLeaf_counter]
    exact inv.nodeSum_removeLeaf (f := nodeSlots) prune rfl rfl
  · intro i n hi
    rcases (TreeInv.removeLeaf_cases hi).2 with ⟨_, rfl⟩ | ⟨_, hi⟩
    · exact hwhole (n := pn) prune.parent_at
    · exact hwhole hi
  · rintro n hn ⟨c, hc⟩
    have hne : n ≠ x := by
      rintro rfl
      exact hx hn
    obtain ⟨c', hc', _⟩ := TreeInv.removeLeaf_live prune hne hc
    exact ⟨⟨c', hc'⟩, inv.word_removeLeaf prune hne hc, inv.slots_removeLeaf prune hne hc⟩

/-- What deletions have done to `s`: the freed values were whole pages of nodes nobody locks. -/
structure Drained (cfg : CacheConfig) (locks : List Nat) (s t : RadixCache)
    (freed : List (List Nat)) : Prop where
  run : RunInv cfg ⟨t, locks⟩
  whole : t.view.WholePages cfg.pageSize
  slots : t.view.treeSlots + freed.flatten = s.view.treeSlots
  freed_whole : ∀ f ∈ freed, ∃ pgs, f = expand cfg.pageSize pgs
  keeps : s.view.Keeps locks t.view

theorem Drained.refl (h : RunInv cfg ⟨s, locks⟩)
    (hwhole : s.view.WholePages cfg.pageSize) : Drained cfg locks s s [] :=
  ⟨h, hwhole, by simp, by simp, .refl⟩

theorem Drained.quiet {freed : List (List Nat)}
    (h : Drained cfg locks s t freed) (hq : Quiet t u) : Drained cfg locks s u freed := by
  have hsame : SameSlots cfg t u := hq.sameSlots
  refine ⟨h.run.quiet hq, ?_, ?_, h.freed_whole, h.keeps.trans (hsame.keeps locks)⟩
  · rw [hq.view]
    exact h.whole
  · rw [hq.view]
    exact h.slots

theorem Drained.delete {freed : List (List Nat)}
    (h : Drained cfg locks s t freed) {x p : Nat} {xn pn : NodeCore}
    (prune : TreeInv.Prune t.view x xn p pn)
    (hview : u.view = t.view.removeLeaf cfg.pageSize x xn p pn) :
    Drained cfg locks s u (freed ++ [xn.value]) := by
  have inv := h.run.tree
  have hx := h.run.locks.not_mem_of_unlocked inv prune.node_at prune.parent_eq prune.unlocked
  obtain ⟨hslots, hwhole, hkeeps⟩ := treeSlots_removeLeaf inv prune hx h.whole
  refine ⟨⟨?_, ?_⟩, ?_, ?_, ?_, ?_⟩
  · rw [hview]
    exact inv.removeLeaf prune
  · rw [hview]
    exact h.run.locks.removeLeaf inv prune
  · rw [hview]
    exact hwhole
  · rw [hview, ← h.slots, ← hslots, flatten_append, flatten_singleton,
      ← Multiset.coe_add, add_assoc, add_comm (xn.value : Multiset Nat)]
  · intro f hf
    rcases mem_append.mp hf with hf | hf
    · exact h.freed_whole f hf
    · rw [mem_singleton.mp hf]
      exact h.whole prune.node_at
  · rw [hview]
    exact h.keeps.trans hkeeps

end RadixCache

/-! ## Section 2: The slots of the allocator -/

namespace Allocator

variable {cfg : PoolConfig}

/-- The slots of the pages the allocator holds. -/
def slots (cfg : PoolConfig) (a : Allocator) : Multiset Nat := expand cfg.pageSize (a.pages cfg)

/-- The slots of the pool: those of all pages but the padded page 0. -/
def poolSlots (cfg : PoolConfig) : Multiset Nat :=
  expand cfg.pageSize (List.range' 1 cfg.numPages)

theorem nodup_poolSlots (cfg : PoolConfig) : (poolSlots cfg).Nodup :=
  Multiset.coe_nodup.mpr ((nodup_expand cfg.pageSize_pos).mpr nodup_range')

theorem slots_congr {a a' : Allocator} (h : (a'.pages cfg).Perm (a.pages cfg)) :
    a'.slots cfg = a.slots cfg :=
  Multiset.coe_eq_coe.mpr (expand_perm cfg.pageSize_pos h)

theorem slots_append {a a' : Allocator} {pgs : List Nat}
    (h : (a'.pages cfg).Perm (a.pages cfg ++ pgs)) :
    a'.slots cfg = a.slots cfg + expand cfg.pageSize pgs := by
  unfold slots
  rw [Multiset.coe_add, ← expand_append cfg.pageSize_pos]
  exact Multiset.coe_eq_coe.mpr (expand_perm cfg.pageSize_pos h)

theorem nodup_of_conserved (cfg : PoolConfig) {pgs : List Nat} (M : Multiset Nat)
    (h : (expand cfg.pageSize pgs : Multiset Nat) + M = poolSlots cfg) : pgs.Nodup := by
  have hnodup := nodup_poolSlots cfg
  rw [← h] at hnodup
  have := Multiset.coe_nodup.mp (Multiset.nodup_of_le (Multiset.le_add_right _ _) hnodup)
  exact (nodup_expand cfg.pageSize_pos).mp this

/-- `free` moves the pages of a row from their holder to the allocator. -/
theorem slots_free {a : Allocator} {idx pgs : List Nat} {M : Multiset Nat}
    (h : RowPages cfg.pageSize idx pgs)
    (hpool : a.slots cfg + expand cfg.pageSize pgs + M = poolSlots cfg) :
    (a.free cfg idx).slots cfg + M = poolSlots cfg ∧
      (a.free cfg idx).inFreeGroup = a.inFreeGroup := by
  have hnodup : pgs.Nodup := by
    refine nodup_of_conserved cfg (a.slots cfg + M) ?_
    rw [← hpool]
    abel
  obtain ⟨hperm, hgroup⟩ := pages_free (a := a) h hnodup
  exact ⟨by rw [slots_append hperm]; exact hpool, hgroup⟩

theorem slots_freeAll {freed : List (List Nat)} {M : Multiset Nat}
    (hwhole : ∀ f ∈ freed, ∃ pgs, f = expand cfg.pageSize pgs) :
    ∀ {a : Allocator}, a.slots cfg + freed.flatten + M = poolSlots cfg →
      (a.freeAll cfg freed).slots cfg + M = poolSlots cfg ∧
        (a.freeAll cfg freed).inFreeGroup = a.inFreeGroup := by
  induction freed with
  | nil =>
    intro a h
    exact ⟨by simpa [freeAll] using h, rfl⟩
  | cons f freed ih =>
    intro a h
    obtain ⟨pgs, hf⟩ := hwhole f (mem_cons_self ..)
    have hrow : RowPages cfg.pageSize f pgs := by
      rw [hf]
      exact .of_expand cfg.pageSize_pos
    obtain ⟨h₁, hgroup₁⟩ := slots_free (a := a) (M := freed.flatten + M) hrow (by
      rw [← h, flatten_cons, ← Multiset.coe_add, hf]
      abel)
    obtain ⟨h₂, hgroup₂⟩ := ih (fun g hg => hwhole g (mem_cons_of_mem _ hg))
      (a := a.free cfg f) (by rw [add_assoc]; exact h₁)
    exact ⟨h₂, hgroup₂.trans hgroup₁⟩

end Allocator

/-! ## Section 3: The invariant -/

/-- The letters of all tokens of a request. -/
def Req.letters (cfg : KvConfig) (r : Req) : List Letter :=
  RadixKey.letters
    { tokenIds := r.tokenIds, extraKey := r.extraKey, isBigram := cfg.cache.isEagle }

/-- What a request holds of its own: the un-cached tail of its row and the unused rest of its last
page. -/
def Req.owned (cfg : KvConfig) (r : Req) : List Nat :=
  r.row.drop r.cacheProtectedLen ++ padding cfg.cache.pageSize r.row

def ownedSlots (cfg : KvConfig) : Option Req → Multiset Nat
  | none => 0
  | some r => r.owned cfg

def reqLocks : Option Req → Multiset Nat
  | none => 0
  | some r => {r.lastNode}

/-- A request in a tree: the protected part of its row is what the tree stores along the path of
its node, and the node spells the request's own tokens. -/
structure ReqOk (cfg : KvConfig) (v : TreeView) (r : Req) : Prop where
  live : ∃ n, v.core r.lastNode = some n
  row : ∃ pgs, RowPages cfg.cache.pageSize r.row pgs
  protected_le : r.cacheProtectedLen ≤ r.row.length
  protected_eq : r.cacheProtectedLen = (v.word r.lastNode).length
  row_slots : r.row.take r.cacheProtectedLen = v.slots r.lastNode
  word : v.word r.lastNode <+: r.letters cfg

/-- The invariant of the system. -/
structure KvInv (cfg : KvConfig) (s : KvState) (locks : List Nat) : Prop where
  run : RadixCache.RunInv cfg.cache ⟨s.cache, locks⟩
  whole : s.cache.view.WholePages cfg.cache.pageSize
  bound : ∀ {i r}, s.reqs i = some r → i < cfg.maxReqs
  locks_eq : (locks : Multiset Nat) = nodeSum reqLocks s.reqs cfg.maxReqs
  req_ok : ∀ {i r}, s.reqs i = some r → ReqOk cfg s.cache.view r
  pool : s.allocator.slots cfg.pool + s.cache.view.treeSlots +
    nodeSum (ownedSlots cfg) s.reqs cfg.maxReqs = Allocator.poolSlots cfg.pool

theorem ReqOk.keeps {cfg : KvConfig} {v v' : TreeView} {locks : List Nat} {r : Req}
    (h : ReqOk cfg v r) (hk : v.Keeps locks v') (hmem : r.lastNode ∈ locks) : ReqOk cfg v' r := by
  obtain ⟨hlive, hword, hslots⟩ := hk r.lastNode hmem h.live
  refine ⟨hlive, h.row, h.protected_le, ?_, ?_, ?_⟩
  · rw [hword]
    exact h.protected_eq
  · rw [hslots]
    exact h.row_slots
  · rw [hword]
    exact h.word

theorem ReqOk.owned_eq {cfg : KvConfig} {v : TreeView} {r : Req} (h : ReqOk cfg v r)
    (inv : TreeInv cfg.cache.pageSize v) {pgs : List Nat}
    (hrow : RowPages cfg.cache.pageSize r.row pgs) :
    ∃ k, r.cacheProtectedLen = k * cfg.cache.pageSize ∧
      r.owned cfg = expand cfg.cache.pageSize (pgs.drop k) := by
  obtain ⟨n, hn⟩ := h.live
  obtain ⟨k, hk⟩ := inv.trie.word_dvd (TreeInv.trie_at hn)
  rw [Nat.mul_comm] at hk
  have hprot : r.cacheProtectedLen = k * cfg.cache.pageSize := h.protected_eq.trans hk
  refine ⟨k, hprot, ?_⟩
  unfold Req.owned
  rw [hprot]
  exact hrow.drop_padding cfg.cache.pageSize_pos (by rw [← hprot]; exact h.protected_le)

namespace KvInv

variable {cfg : KvConfig} {s : KvState} {locks : List Nat}

theorem mem_locks (h : KvInv cfg s locks) {i : Nat} {r : Req} (hi : s.reqs i = some r) :
    r.lastNode ∈ locks := by
  rw [← Multiset.mem_coe, h.locks_eq]
  refine Multiset.mem_sum.mpr ⟨i, Finset.mem_range.mpr (h.bound hi), ?_⟩
  simp [hi, reqLocks]

end KvInv

end Sglang.MemCache
