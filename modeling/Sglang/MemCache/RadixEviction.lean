import Mathlib
import Sglang.MemCache.RadixCacheInvariant

/-!
# What Eviction Takes

- `EvictedSoFar`: the nodes that `evict` has taken, and what has become of the others,
- `evictable_zero`: without a node to take, no token is evictable,
- `evict_meetsDemand`: in every state of a run, under every order in which the heap gives its
  entries, `evict` meets its demand and takes no node that it may not take.
-/

namespace Sglang.MemCache

open List Option
open Lib

namespace RadixCache

/-! ## Section 1: The nodes taken so far -/

/-- The fields of a node that eviction leaves as they are. -/
structure SameNode (nd nd' : TreeNode) : Prop where
  key : nd'.key = nd.key
  value : nd'.value = nd.value
  lockRef : nd'.lockRef = nd.lockRef
  parent : nd'.parent = nd.parent

/-- `evict`, called in `s₀` with the demand `n`, has taken the nodes `gone`, in this order, and is
in `s`. -/
structure EvictedSoFar (s₀ : RadixCache) (n : Nat) (s : RadixCache) (gone : List Nat)
    (acc : EvictResult) :
    Prop where
  nodup : gone.Nodup
  freed : List.Forall₂ (fun x v => ∃ nd, s₀.nodes x = some nd ∧ nd.lockRef = 0 ∧
    nd.value = v) gone acc.freed
  count : acc.numTokensEvicted = (acc.freed.map List.length).sum
  wanted : ∀ k < gone.length, ((acc.freed.take k).map List.length).sum < n
  taken : ∀ x ∈ gone, s.nodes x = none
  kept : ∀ i nd, s₀.nodes i = some nd → i ∉ gone → ∃ nd', s.nodes i = some nd' ∧ SameNode nd nd'
  old : ∀ i nd', s.nodes i = some nd' → ∃ nd, s₀.nodes i = some nd ∧ SameNode nd nd'
  closed : ∀ x ∈ gone, ∀ y nd, s₀.nodes y = some nd → nd.parent = some x → y ∈ gone
  size : s.evictableSize + acc.numTokensEvicted = s₀.evictableSize
  rootNode : s.rootNode = s₀.rootNode

theorem SameNode.refl (nd : TreeNode) : SameNode nd nd := ⟨rfl, rfl, rfl, rfl⟩

theorem SameNode.trans {a b c : TreeNode} (h : SameNode a b) (h' : SameNode b c) : SameNode a c :=
  ⟨h'.key.trans h.key, h'.value.trans h.value, h'.lockRef.trans h.lockRef, h'.parent.trans h.parent⟩

theorem EvictedSoFar.start (s : RadixCache) (n : Nat) : EvictedSoFar s n s [] ⟨0, []⟩ where
  nodup := nodup_nil
  freed := .nil
  count := rfl
  wanted := fun k hk => absurd hk (Nat.not_lt_zero k)
  taken := fun x hx => absurd hx not_mem_nil
  kept := fun i nd h _ => ⟨nd, h, .refl nd⟩
  old := fun i nd h => ⟨nd, h, .refl nd⟩
  closed := fun x hx => absurd hx not_mem_nil
  size := by simp
  rootNode := rfl

theorem sameNode_of_core {a b : TreeNode} (h : a.toNodeCore = b.toNodeCore) : SameNode a b where
  key := congrArg (fun c : NodeCore => c.key) h.symm
  value := congrArg (fun c : NodeCore => c.value) h.symm
  lockRef := congrArg NodeCore.lockRef h.symm
  parent := congrArg (fun c : NodeCore => c.parent) h.symm

section Step

variable {cfg : CacheConfig} {s₀ s t : RadixCache} {n : Nat} {gone : List Nat} {acc : EvictResult}
  {x p : Nat} {xn pn : TreeNode}

section

variable {i : Nat} (prune : TreeInv.Prune s.view x xn.toNodeCore p pn.toNodeCore)
  (hpn : s.nodes p = some pn)
  (hview : t.view = s.view.removeLeaf cfg.pageSize x xn.toNodeCore p pn.toNodeCore)
include prune hpn hview

theorem removeLeaf_node
    {nd' : TreeNode} (hi : t.nodes i = some nd') :
    i ≠ x ∧ ∃ nd, s.nodes i = some nd ∧ SameNode nd nd' := by
  have hcore := core_at hi
  rw [hview] at hcore
  obtain ⟨hix, ⟨rfl, heq⟩ | ⟨-, hold⟩⟩ := TreeInv.removeLeaf_cases hcore
  · refine ⟨hix, pn, hpn, ?_⟩
    exact
      { key := (congrArg (fun c : NodeCore => c.key) heq :)
        value := (congrArg (fun c : NodeCore => c.value) heq :)
        lockRef := (congrArg NodeCore.lockRef heq :)
        parent := (congrArg (fun c : NodeCore => c.parent) heq :) }
  · obtain ⟨nd, hnd, heq⟩ := exists_node hold
    exact ⟨hix, nd, hnd, sameNode_of_core heq⟩

theorem removeLeaf_keeps
    {nd : TreeNode} (hi : s.nodes i = some nd) (hix : i ≠ x) :
    ∃ nd', t.nodes i = some nd' ∧ SameNode nd nd' := by
  obtain ⟨c, hc, -⟩ := @TreeInv.removeLeaf_live cfg.pageSize _ _ _ _ _ _ _ prune hix (core_at hi)
  rw [← hview] at hc
  obtain ⟨nd', hnd', -⟩ := exists_node hc
  obtain ⟨-, nd₂, hnd₂, hsame⟩ := removeLeaf_node prune hpn hview hnd'
  rw [hi] at hnd₂
  cases hnd₂
  exact ⟨nd', hnd', hsame⟩

end

theorem EvictedSoFar.take (h : EvictedSoFar s₀ n s gone acc) (inv : TreeInv cfg.pageSize s.view)
    (hwant : acc.numTokensEvicted < n) (hxn : s.nodes x = some xn) (hpn : s.nodes p = some pn)
    (prune : TreeInv.Prune s.view x xn.toNodeCore p pn.toNodeCore)
    (hview : t.view = s.view.removeLeaf cfg.pageSize x xn.toNodeCore p pn.toNodeCore) :
    EvictedSoFar s₀ n t (gone ++ [x])
    ⟨acc.numTokensEvicted + xn.value.length, acc.freed ++ [xn.value]⟩ := by
  have hlen := h.freed.length_eq
  have hxgone : x ∉ gone := by
    intro hx
    rw [h.taken x hx] at hxn
    cases hxn
  obtain ⟨nd₀, hnd₀, hsame₀⟩ := h.old x xn hxn
  refine
    { nodup := ?_
      freed := ?_
      count := ?_
      wanted := ?_
      taken := ?_
      kept := ?_
      old := ?_
      closed := ?_
      size := ?_
      rootNode := ?_ }
  · -- the nodes are evicted once, each freed with its value
    rw [nodup_append]
    refine ⟨h.nodup, nodup_singleton x, ?_⟩
    rintro a ha b hb rfl
    rw [mem_singleton.mp hb] at ha
    exact hxgone ha
  · apply rel_append h.freed
    refine .cons ⟨nd₀, hnd₀, ?_, hsame₀.value.symm⟩ .nil
    rw [← hsame₀.lockRef]
    exact prune.unlocked
  · rw [map_append, sum_append, ← h.count]
    simp
  · intro k hk
    rw [length_append, length_singleton] at hk
    rcases Nat.lt_or_ge k gone.length with hlt | hge
    · rw [take_append_of_le_length (by omega)]
      exact h.wanted k hlt
    · -- the new node was taken because the demand was not met
      rw [show k = acc.freed.length by omega, take_left', ← h.count]
      · exact hwant
      · rfl
  · intro y hy
    cases hty : t.nodes y with
    | none => rfl
    | some nd' =>
      obtain ⟨hyx, nd, hnd, -⟩ := removeLeaf_node prune hpn hview hty
      rcases mem_append.mp hy with hy | hy
      · rw [h.taken y hy] at hnd
        cases hnd
      · exact absurd (mem_singleton.mp hy) hyx
  · -- what is not evicted keeps its data
    intro i nd hi hgone
    rw [mem_append, not_or, mem_singleton] at hgone
    obtain ⟨nd₁, hnd₁, hsame₁⟩ := h.kept i nd hi hgone.1
    obtain ⟨nd₂, hnd₂, hsame₂⟩ := removeLeaf_keeps prune hpn hview hnd₁ hgone.2
    exact ⟨nd₂, hnd₂, hsame₁.trans hsame₂⟩
  · intro i nd' hi
    obtain ⟨-, nd₁, hnd₁, hsame₁⟩ := removeLeaf_node prune hpn hview hi
    obtain ⟨nd, hnd, hsame⟩ := h.old i nd₁ hnd₁
    exact ⟨nd, hnd, hsame.trans hsame₁⟩
  · intro a ha y nd hy hpar
    rw [mem_append]
    by_cases hygone : y ∈ gone
    · exact .inl hygone
    rcases mem_append.mp ha with ha | ha
    · exact .inl (h.closed a ha y nd hy hpar)
    · -- a child that is left would be a child of the leaf
      rw [mem_singleton] at ha
      subst ha
      obtain ⟨nd₁, hnd₁, hsame₁⟩ := h.kept y nd hy hygone
      have hlook := inv.lookup_childKey (core_at hnd₁) (hsame₁.parent.trans hpar) prune.node_at
      rw [(entries_eq_nil_iff _).mp prune.childless] at hlook
      cases hlook
  · -- a node of length `xn.key.len` leaves the evictable size
    have hsize : t.evictableSize = s.evictableSize - xn.key.len := by
      have := congrArg TreeView.evictableSize hview
      rw [TreeView.removeLeaf, TreeView.updateLeafStatus_evictableSize] at this
      exact this
    have hval := inv.value_len (core_at hxn)
    have hsum := h.size
    rw [hsize]
    push_cast
    have hvalue : (xn.value.length : Int) = xn.key.len := by exact_mod_cast hval
    omega
  · have := congrArg TreeView.rootNode hview
    rw [TreeInv.removeLeaf_rootNode] at this
    exact this.trans h.rootNode

end Step

/-! ## Section 2: When nothing is left to take -/

variable {ps : Nat} {v : TreeView} {cfg : CacheConfig}

theorem parent_mem_path (inv : TreeInv ps v) {n c i : Nat} {cn nc : NodeCore}
    (hn : v.core n = some cn) (hc : v.core c = some nc) (hpar : nc.parent = some i)
    (hroot : i ≠ v.rootNode)
    (hmem : c ∈ v.path n) : i ∈ v.path n := by
  obtain ⟨-, -, hpre⟩ := inv.trie.path_mem (inv.path_up hn) c hmem
  obtain ⟨ni, hni⟩ := inv.parent_live hc hpar
  have hword : v.word i <+: v.word c := by
    rw [inv.word_child hc hpar]
    exact prefix_append _ _
  exact (inv.trie.mem_path_of_isPrefix (inv.path_up hn) (TreeInv.trie_at hni)
    (hword.trans hpre)).resolve_right hroot

theorem lockRef_le_parent {locks : List Nat}
    (inv : TreeInv cfg.pageSize v) (ok : LocksOk cfg v locks) {c i : Nat} {nc ni : NodeCore}
    (hc : v.core c = some nc) (hpar : nc.parent = some i) (hi : v.core i = some ni)
    (hroot : i ≠ v.rootNode) :
    nc.lockRef ≤ ni.lockRef := by
  rw [ok.count hc (inv.ne_root hc hpar), ok.count hi hroot]
  norm_cast
  apply countP_mono_left
  intro n hn hmem
  obtain ⟨cn, hcn⟩ := ok.live n hn
  rw [decide_eq_true_eq] at hmem ⊢
  exact parent_mem_path inv hcn hc hpar hroot hmem

theorem exists_evictable {locks : List Nat}
    (inv : TreeInv cfg.pageSize v) (ok : LocksOk cfg v locks) {i : Nat} {ni : NodeCore}
    (hi : v.core i = some ni) (hlock : ni.lockRef = 0) : ∃ x, v.Evictable x := by
  classical
  let F := (Finset.range v.counter).filter fun i => ∃ n, v.core i = some n ∧ n.lockRef = 0
  have hmem : ∀ {j n}, v.core j = some n → n.lockRef = 0 → j ∈ F := fun hj hl =>
    Finset.mem_filter.mpr ⟨Finset.mem_range.mpr (inv.fresh hj), _, hj, hl⟩
  -- take one whose word is longest
  obtain ⟨x, hx, hmax⟩ := F.exists_max_image (fun j => (v.word j).length) ⟨i, hmem hi hlock⟩
  obtain ⟨-, n, hn, hl⟩ := Finset.mem_filter.mp hx
  refine ⟨x, n, hn, hl, ?_⟩
  by_contra hne
  rw [entries_eq_nil_iff, not_forall] at hne
  obtain ⟨k, hk⟩ := hne
  obtain ⟨c, hlook⟩ := ne_none_iff_exists'.mp hk
  obtain ⟨nc, hc, hpar, -⟩ := inv.of_lookup hn hlook
  have hle := lockRef_le_parent inv ok hc hpar hn (inv.ne_root_of_unlocked hn hl)
  have hnonneg := inv.lock_nonneg hc
  have hlonger := inv.trie.word_length_lt (TreeInv.trie_at hc) hpar
  have hbound := hmax c (hmem hc (by omega))
  omega

theorem evictable_zero {r : CacheRun} (h : RunInv cfg r)
    (hnone : ∀ x, ¬r.cache.view.Evictable x) : r.cache.evictableSize = 0 := by
  have hsum : r.cache.view.evictableSize = _ := h.tree.evictable_eq
  rw [show r.cache.evictableSize = r.cache.view.evictableSize from rfl, hsum]
  unfold nodeSum
  apply Finset.sum_eq_zero
  intro i _
  unfold evictableLen
  split
  · rfl
  · next n hi =>
    rw [if_neg]
    intro hlock
    obtain ⟨x, hx⟩ := exists_evictable h.tree h.locks hi hlock
    exact hnone x hx

/-! ## Section 3: The demand -/

/-- `evict(n)`, called in `s`, has returned `acc` and left `s'`: it has taken the nodes `gone`. -/
structure MeetsDemand (s : RadixCache) (n : Nat) (s' : RadixCache) (acc : EvictResult)
    (gone : List Nat) :
    Prop where
  /-- Exactly the slots of these nodes are freed, and none of them is locked. -/
  freed : List.Forall₂ (fun x v => ∃ nd, s.nodes x = some nd ∧ nd.lockRef = 0 ∧
    nd.value = v) gone acc.freed
  nodup : gone.Nodup
  /-- What hangs below a node that is taken is taken. -/
  closed : ∀ x ∈ gone, ∀ y nd, s.nodes y = some nd → s.InSubtree x y → y ∈ gone
  count : acc.numTokensEvicted = (acc.freed.map List.length).sum
  enough : min (n : Int) s.evictableSize ≤ acc.numTokensEvicted
  /-- No node is taken once the demand is met. -/
  wanted : ∀ k < gone.length, ((acc.freed.take k).map List.length).sum < n
  taken : ∀ x ∈ gone, s'.nodes x = none
  kept : ∀ i nd, s.nodes i = some nd → i ∉ gone → ∃ nd', s'.nodes i = some nd' ∧ SameNode nd nd'
  old : ∀ i nd', s'.nodes i = some nd' → ∃ nd, s.nodes i = some nd ∧ SameNode nd nd'

theorem mem_of_inSubtree {s : RadixCache} (inv : TreeInv ps s.view) {gone : List Nat}
    (hclosed : ∀ x ∈ gone, ∀ y nd, s.nodes y = some nd → nd.parent = some x → y ∈ gone) {x : Nat}
    (hx : x ∈ gone) : ∀ y nd, s.nodes y = some nd → s.InSubtree x y → y ∈ gone := by
  intro y nd hy hsub
  unfold InSubtree at hsub
  rw [decide_eq_true_eq] at hsub
  revert hsub
  refine inv.trie.induction_on (P := fun y => x ∈ s.view.path y → y ∈ gone) ?_ ?_ y _
    (TreeInv.trie_at (core_at hy))
  · intro hmem
    rw [inv.path_eq .root] at hmem
    cases hmem
  · intro i c p hc hp _ ih hmem
    obtain ⟨n, hn, rfl⟩ := skeleton_some hc
    obtain ⟨nd', hnd', rfl⟩ := exists_node hn
    rw [inv.path_child hn hp] at hmem
    rcases mem_cons.mp hmem with rfl | hmem
    · exact hx
    · exact hclosed p (ih hmem) i nd' hnd' hp

theorem hashPages_none : ∀ {n : Nat} {us : List KeyUnit} {prior : Option String},
    hashPages cfg n us prior = none → ∃ u ∈ us, unitWords u = none := by
  have hpage : ∀ us : List KeyUnit, pageWords us = none → ∃ u ∈ us, unitWords u = none := by
    intro us
    induction us with
    | nil => exact fun h => by cases h
    | cons u us ih =>
      intro h
      cases hu : unitWords u with
      | none => exact ⟨u, mem_cons_self .., hu⟩
      | some w =>
        cases hus : pageWords us with
        | none =>
          obtain ⟨u', hmem, hu'⟩ := ih hus
          exact ⟨u', mem_cons_of_mem _ hmem, hu'⟩
        | some ws =>
          rw [pageWords, hu, hus] at h
          cases h
  intro n
  induction n with
  | zero => exact fun h => by cases h
  | succ n ih =>
    intro us prior h
    rw [hashPages] at h
    cases hw : pageWords (us.take cfg.pageSize) with
    | none =>
      obtain ⟨u, hmem, hu⟩ := hpage _ hw
      exact ⟨u, mem_of_mem_take hmem, hu⟩
    | some words =>
      rw [hw] at h
      cases hrest : hashPages cfg n (us.drop cfg.pageSize) (some (cfg.sha256 prior words)) with
      | none =>
        obtain ⟨u, hmem, hu⟩ := ih hrest
        exact ⟨u, mem_of_mem_drop hmem, hu⟩
      | some rest =>
        simp only [bind_eq_bind, bind_some, hrest] at h
        cases h

theorem recordRemoveEvent_raised {s s' : RadixCache} {nd : TreeNode}
    (h : s.recordRemoveEvent cfg nd = (s', false)) :
    cfg.enableKvCacheEvents = true ∧ ∃ u ∈ nd.key.units, unitWords u = none := by
  unfold recordRemoveEvent at h
  cases hon : cfg.enableKvCacheEvents with
  | false =>
    rw [hon, if_neg (by decide)] at h
    cases h
  | true =>
    refine ⟨rfl, ?_⟩
    rw [hon, if_pos rfl] at h
    cases hhash : nd.hashValue.or (s.computeNodeHashValues cfg nd) with
    | none => exact hashPages_none (or_eq_none_iff.mp hhash).2
    | some hs =>
      rw [hhash] at h
      dsimp only at h
      split at h
      · cases h
      · cases h

theorem EvictedSoFar.meetsDemand {s s' : RadixCache} {n : Nat} {gone : List Nat}
    {acc : EvictResult} (h : EvictedSoFar s n s' gone acc) (inv : TreeInv ps s.view)
    (hstop : n ≤ acc.numTokensEvicted ∨ s'.evictableSize = 0) : MeetsDemand s n s' acc gone where
  freed := h.freed
  nodup := h.nodup
  closed := fun _ hx => mem_of_inSubtree inv h.closed hx
  count := h.count
  enough := by
    have hsize := h.size
    rcases hstop with hn | hzero
    · omega
    · omega
  wanted := h.wanted
  taken := h.taken
  kept := h.kept
  old := h.old

/-- In every state of a run, `evict` returns under every order in which the heap gives its entries,
unless the event of a deletion meets a token that does not fit 32 bits; and where it returns, it
meets its demand and takes nothing that it may not take. -/
theorem evict_meetsDemand (cfg : CacheConfig) (now : Int) (ops : List CacheOp)
    (hvalid : (CacheRun.start cfg now).ValidOps cfg ops) (order : EvictionOrder) (n : Nat) :
    ∃ r, (CacheRun.start cfg now).exec cfg ops = some r ∧
      ∃ s' res, r.cache.evict cfg order n = some (s', res) ∧
        (∀ acc, res = some acc → ∃ gone, MeetsDemand r.cache n s' acc gone) ∧
        (res = none → cfg.enableKvCacheEvents = true ∧
          ∃ i nd, r.cache.nodes i = some nd ∧ ∃ u ∈ nd.key.units, unitWords u = none) := by
  obtain ⟨r, hexec, h⟩ := (runInv_reset cfg now _).exec hvalid
  refine ⟨r, hexec, ?_⟩
  unfold evict
  cases hdis : cfg.disable with
  | true =>
    -- a disabled cache has no node but the locked root
    have hnone : ∀ x, ¬r.cache.view.Evictable x := by
      rintro x ⟨c, hc, hlock, -⟩
      exact h.tree.ne_root_of_unlocked hc hlock (h.locks.disabled hdis hc)
    have hmeets := (EvictedSoFar.start r.cache n).meetsDemand h.tree (.inr (evictable_zero h hnone))
    refine ⟨r.cache, some ⟨0, []⟩, by rw [if_pos rfl], ?_, fun heq => by cases heq⟩
    intro acc hacc
    rw [← Option.some.inj hacc]
    exact ⟨[], hmeets⟩
  | false =>
    obtain ⟨s', res, acc', heq, ⟨hlocks, gone, hgone⟩, inv', hexit⟩ := evictLoop_rule order n
      (P := fun s acc => LocksOk cfg s.view r.locks ∧ ∃ gone, EvictedSoFar r.cache n s gone acc)
      (fun hwant hP inv hxn hpn prune _ hview hev => by
        obtain ⟨hlocks, gone, hgone⟩ := hP
        rw [← view_recordRemoveEvent hev] at hview
        refine ⟨?_, _, hgone.take inv hwant hxn hpn prune hview⟩
        rw [hview]
        exact hlocks.removeLeaf inv prune)
      ⟨h.locks, [], .start r.cache n⟩ h.tree (heapOk_leaves h.tree)
      (Nat.lt_succ_of_le (liveCount_le r.cache.view))
    rw [if_neg (by decide)]
    refine ⟨s', res, heq, ?_, ?_⟩
    · rintro acc rfl
      refine ⟨gone, ?_⟩
      cases hexit with
      | enough hn => exact hgone.meetsDemand h.tree (.inl hn)
      | drained hnone =>
        have hrun : RunInv cfg ⟨s', r.locks⟩ := ⟨inv', hlocks⟩
        exact hgone.meetsDemand h.tree (.inr (evictable_zero hrun hnone))
    · rintro rfl
      cases hexit with
      | raised hP hx hev =>
        obtain ⟨-, gone', hgone'⟩ := hP
        obtain ⟨hon, u, hu, hraise⟩ := recordRemoveEvent_raised hev
        obtain ⟨nd, hnd, hsame⟩ := hgone'.old _ _ hx
        rw [hsame.key] at hu
        exact ⟨hon, _, nd, hnd, u, hu, hraise⟩

theorem evict_meetsDemand_sample :
    ∃ r, (CacheRun.start sampleConfig 0).exec sampleConfig sampleOps = some r ∧
      ∃ s' res, r.cache.evict sampleConfig (EvictionStrategy.order .lfu) 3 = some (s', res) ∧
        (∀ acc, res = some acc → ∃ gone, MeetsDemand r.cache 3 s' acc gone) ∧
        (res = none → sampleConfig.enableKvCacheEvents = true ∧
          ∃ i nd, r.cache.nodes i = some nd ∧ ∃ u ∈ nd.key.units, unitWords u = none) :=
  evict_meetsDemand sampleConfig 0 sampleOps (by decide +kernel) (EvictionStrategy.order .lfu) 3

end RadixCache

end Sglang.MemCache
