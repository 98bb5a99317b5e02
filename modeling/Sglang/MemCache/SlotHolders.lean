import Sglang.MemCache.SlotConservation

/-!
# Every Slot has one Holder

The multiset equation of `KvInv`, read slot by slot: in every state of a run a slot of the pool is
with the allocator, in one node of the tree, in the un-cached tail of one live request's row, or in
the unused rest of one live request's last page.

The last holder exists only with more than one slot a page: the allocator hands out whole pages, so
the slots behind the end of a row have left the free lists before the row reaches them.
-/

namespace Sglang.MemCache

open Lib

/-! ## Section 1: Holders -/

/-- Those who may hold a slot. -/
inductive Holder where
  | allocator
  | node (n : Nat)
  | tail (i : Nat)
  | lastPage (i : Nat)
deriving DecidableEq, Repr

def KvState.heldBy (cfg : KvConfig) (s : KvState) : Holder → List Nat
  | .allocator => expand cfg.pool.pageSize (s.allocator.pages cfg.pool)
  | .node n =>
    match s.cache.nodes n with
    | none => []
    | some nd => nd.value
  | .tail i =>
    match s.reqs i with
    | none => []
    | some r => r.row.drop r.cacheProtectedLen
  | .lastPage i =>
    match s.reqs i with
    | none => []
    | some r => padding cfg.cache.pageSize r.row

/-- The slot ids of the pool: page 0 is the padded page. -/
def PoolConfig.IsSlot (cfg : PoolConfig) (x : Nat) : Prop :=
  cfg.pageSize ≤ x ∧ x < (cfg.numPages + 1) * cfg.pageSize

/-- No slot is lost and none is held twice, and requests agree with the tree. -/
structure KvState.Conserved (cfg : KvConfig) (s : KvState) : Prop where
  /-- A slot id is held by exactly one holder. -/
  one_holder : ∀ x, cfg.pool.IsSlot x → ∃! h, x ∈ s.heldBy cfg h
  /-- A holder holds it once. -/
  held_once : ∀ h, (s.heldBy cfg h).Nodup
  /-- Nothing else is held. -/
  in_pool : ∀ h x, x ∈ s.heldBy cfg h → cfg.pool.IsSlot x
  /-- The protected part of a row is what the tree stores along the path of the request's node. -/
  protected_row : ∀ i r, s.reqs i = some r →
    r.row.take r.cacheProtectedLen = s.cache.view.slots r.lastNode
  /-- That path is locked. -/
  locked_path : ∀ i r, s.reqs i = some r → ∀ n ∈ s.cache.view.path r.lastNode,
    ∃ nd, s.cache.nodes n = some nd ∧ 1 ≤ nd.lockRef

/-! ## Section 2: From the invariant to the holders -/

variable {cfg : KvConfig} {s : KvState} {locks : List Nat}

theorem mem_poolSlots {cfg : PoolConfig} {x : Nat} :
    x ∈ Allocator.poolSlots cfg ↔ cfg.IsSlot x := by
  have hps := cfg.pageSize_pos
  unfold Allocator.poolSlots PoolConfig.IsSlot
  rw [Multiset.mem_coe, mem_expand hps, List.mem_range'_1, Nat.le_div_iff_mul_le hps,
    Nat.div_lt_iff_lt_mul hps, Nat.one_mul, Nat.add_comm 1]

/-- The holders of a state, those that exist. -/
def holders (cfg : KvConfig) (s : KvState) : Finset Holder :=
  {.allocator} ∪ (Finset.range s.cache.counter).image .node ∪
    ((Finset.range cfg.maxReqs).image .tail ∪ (Finset.range cfg.maxReqs).image .lastPage)

theorem KvInv.mem_holders (h : KvInv cfg s locks) {x : Nat} {o : Holder}
    (hx : x ∈ s.heldBy cfg o) : o ∈ holders cfg s := by
  have hreq : ∀ {i : Nat} {r : Req}, s.reqs i = some r → i < cfg.maxReqs := h.bound
  unfold holders
  cases o with
  | allocator => simp
  | node n =>
    cases hn : s.cache.nodes n with
    | none => simp [KvState.heldBy, hn] at hx
    | some nd =>
      have hlt : n < s.cache.counter :=
        h.run.tree.bound _ _ (TreeInv.trie_at (RadixCache.core_at hn))
      simp [hlt]
  | tail i =>
    cases hi : s.reqs i with
    | none => simp [KvState.heldBy, hi] at hx
    | some r => simp [hreq hi]
  | lastPage i =>
    cases hi : s.reqs i with
    | none => simp [KvState.heldBy, hi] at hx
    | some r => simp [hreq hi]

theorem KvInv.sum_heldBy (h : KvInv cfg s locks) :
    ∑ o ∈ holders cfg s, (s.heldBy cfg o : Multiset Nat) = Allocator.poolSlots cfg.pool := by
  have hnodes : ∑ n ∈ Finset.range s.cache.counter, (s.heldBy cfg (.node n) : Multiset Nat) =
      s.cache.view.treeSlots := by
    refine Finset.sum_congr rfl fun n _ => ?_
    change _ = nodeSlots ((s.cache.nodes n).map TreeNode.toNodeCore)
    cases hn : s.cache.nodes n <;> simp [KvState.heldBy, nodeSlots, hn]
  have hreqs : ∑ i ∈ Finset.range cfg.maxReqs, (s.heldBy cfg (.tail i) : Multiset Nat) +
      ∑ i ∈ Finset.range cfg.maxReqs, (s.heldBy cfg (.lastPage i) : Multiset Nat) =
      nodeSum (ownedSlots cfg) s.reqs cfg.maxReqs := by
    rw [← Finset.sum_add_distrib]
    refine Finset.sum_congr rfl fun i _ => ?_
    cases hi : s.reqs i <;> simp [KvState.heldBy, ownedSlots, Req.owned, hi]
  rw [← h.pool, ← hnodes, ← hreqs, holders, Finset.sum_union, Finset.sum_union, Finset.sum_union,
    Finset.sum_singleton, Finset.sum_image, Finset.sum_image, Finset.sum_image]
  · rfl
  all_goals simp [Finset.disjoint_left, Set.InjOn]

theorem KvInv.conserved (h : KvInv cfg s locks) : s.Conserved cfg := by
  have hsum := h.sum_heldBy
  have hnodup := Allocator.nodup_poolSlots cfg.pool
  rw [← hsum] at hnodup
  have hle : ∀ {o}, o ∈ holders cfg s →
      (s.heldBy cfg o : Multiset Nat) ≤ ∑ o ∈ holders cfg s, (s.heldBy cfg o : Multiset Nat) :=
    fun ho => Finset.single_le_sum (f := fun o => (s.heldBy cfg o : Multiset Nat))
      (fun _ _ => Multiset.zero_le _) ho
  refine ⟨?_, ?_, ?_, fun i r hi => (h.req_ok hi).row_slots, ?_⟩
  · intro x hx
    rw [← mem_poolSlots, ← hsum] at hx
    obtain ⟨o, ⟨_, hxo⟩, huniq⟩ := existsUnique_of_nodup_sum hnodup hx
    exact ⟨o, hxo, fun o' hxo' => huniq o' ⟨h.mem_holders hxo', hxo'⟩⟩
  · intro o
    by_cases ho : o ∈ holders cfg s
    · exact Multiset.coe_nodup.mp (Multiset.nodup_of_le (hle ho) hnodup)
    · have hnil : s.heldBy cfg o = [] :=
        List.eq_nil_iff_forall_not_mem.mpr fun x hx => ho (h.mem_holders hx)
      rw [hnil]
      exact List.nodup_nil
  · intro o x hx
    rw [← mem_poolSlots, ← hsum]
    exact Multiset.mem_of_le (hle (h.mem_holders hx)) hx
  · intro i r hi n hn
    have inv := h.run.tree
    obtain ⟨c, hc⟩ := (h.req_ok hi).live
    obtain ⟨⟨cn, hcn⟩, _⟩ := inv.trie.path_mem (inv.path_up hc) n hn
    obtain ⟨nc, hnc, _⟩ := skeleton_some hcn
    obtain ⟨nd, hnd, rfl⟩ := RadixCache.exists_node hnc
    exact ⟨nd, hnd, h.run.locks.locked_of_mem inv (h.mem_locks hi) hn hnc⟩

/-! ## Section 3: Runs -/

/-- In every state that a run of valid steps reaches, every slot of the pool has one holder. No
step raises while no events are recorded. -/
theorem slot_conservation (cfg : KvConfig) (now : Int) (ops : List KvOp)
    (hvalid : (KvState.init cfg now).ValidOps cfg ops) :
    (∀ s, (KvState.init cfg now).exec cfg ops = some s → s.Conserved cfg) ∧
      (cfg.cache.enableKvCacheEvents = false → ((KvState.init cfg now).exec cfg ops).isSome) := by
  obtain ⟨hsome, hinv⟩ := (KvInv.init cfg now).exec hvalid
  refine ⟨fun s hs => ?_, hsome⟩
  obtain ⟨locks, h⟩ := hinv s hs
  exact h.conserved

def sampleKv : KvConfig where
  cache := { pageSize := 2, pageSize_pos := Nat.two_pos }
  pool :=
    { kind := .paged, size := 16, pageSize := 2, pageSize_pos :=
      Nat.two_pos, token_page := by decide }
  page_eq := rfl
  maxReqs := 2

/-- Two requests that share a page. The first is cached in two chunks and finishes in a free group
while the second runs; then the tree is evicted. -/
def sampleKvOps : List KvOp :=
  [.newReq 1 0 [1, 2, 3, 4, 5] none 0 none 4,
    .allocForExtend [0] [4],
    .cacheUnfinishedReq 2 0 4 true,
    .newReq 3 1 [1, 2, 7] none 0 (some "chat") 2,
    .allocForExtend [0, 1] [1, 1],
    .appendTokens 1 [8],
    .allocForDecode [1],
    .freeGroupBegin,
    .releaseKvCache 4 0 5 true,
    .evict (EvictionStrategy.order .lru) 2,
    .freeGroupEnd,
    .cacheUnfinishedReq 5 1 4 false,
    .releaseKvCache 6 1 4 false]

theorem slot_conservation_sample :
    (∀ s, (KvState.init sampleKv 0).exec sampleKv sampleKvOps = some s → s.Conserved sampleKv) ∧
      (sampleKv.cache.enableKvCacheEvents = false →
        ((KvState.init sampleKv 0).exec sampleKv sampleKvOps).isSome) :=
  slot_conservation sampleKv 0 sampleKvOps (by decide +kernel)

/-- Without the unused rests of last pages there are slots without a holder: a request with one
token takes the first page, and its second slot is in no free list, node or row. -/
theorem last_page_unheld :
    (KvState.init sampleKv 0).ValidOps sampleKv
        [.newReq 1 0 [1] none 0 none 0, .allocForExtend [0] [1]] ∧
      ∃ s, (KvState.init sampleKv 0).exec sampleKv
          [.newReq 1 0 [1] none 0 none 0, .allocForExtend [0] [1]] = some s ∧
        sampleKv.pool.IsSlot 3 ∧ 3 ∉ s.heldBy sampleKv .allocator ∧
        (∀ n, 3 ∉ s.heldBy sampleKv (.node n)) ∧ ∀ i, 3 ∉ s.heldBy sampleKv (.tail i) := by
  have hvalid : (KvState.init sampleKv 0).ValidOps sampleKv
      [.newReq 1 0 [1] none 0 none 0, .allocForExtend [0] [1]] := by decide +kernel
  refine ⟨hvalid, ?_⟩
  obtain ⟨hsome, hinv⟩ := (KvInv.init sampleKv 0).exec hvalid
  have hheld : (((KvState.init sampleKv 0).exec sampleKv
      [.newReq 1 0 [1] none 0 none 0, .allocForExtend [0] [1]]).map
        fun s => s.heldBy sampleKv (.lastPage 0)) = some [3] := by decide +kernel
  obtain ⟨s, hs⟩ := Option.isSome_iff_exists.mp (hsome rfl)
  rw [hs, Option.map_some, Option.some.injEq] at hheld
  obtain ⟨locks, h⟩ := hinv s hs
  have hslot : sampleKv.pool.IsSlot 3 := by
    unfold PoolConfig.IsSlot
    decide
  -- the rest of the last page of request 0 is the one holder
  have huniq : ∀ {o}, 3 ∈ s.heldBy sampleKv o → Holder.lastPage 0 = o :=
    (h.conserved.one_holder 3 hslot).unique (by simp [hheld])
  refine ⟨s, hs, hslot, ?_, ?_, ?_⟩
  · intro hx
    cases huniq hx
  · intro n hx
    cases huniq hx
  · intro i hx
    cases huniq hx

end Sglang.MemCache
