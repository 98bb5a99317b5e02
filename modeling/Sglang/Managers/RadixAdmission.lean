import Sglang.Lib.Runs
import Sglang.Managers.AdmissionLocks
import Sglang.MemCache.RadixCacheInvariant

/-!
# Admission over the Radix Cache

The radix cache as the prefix cache of an admission. The invariant of its runs, which says that the
lock count of a node is the number of outstanding locks below it, holds again after a call of
`addOneReq`, with one more outstanding lock exactly when the request was admitted. So it does after
a whole round of the scheduler, which matches, inserts and evicts between the calls.
-/

namespace Sglang.Managers.PrefillAdder

open List Option
open MemCache MemCache.RadixCache Lib

variable {α : Type}

/-- `RadixCache` over a pool with `available` free tokens. It has no host tier to load from, and a
call that raises changes nothing. -/
def radixTreeCache (cfg : CacheConfig) (available : Int) : TreeCache RadixCache Nat Unit where
  disable := cfg.disable
  isTreeCache := true
  incLockRef := fun t node => (((t.incLockRef cfg node).map Prod.fst).getD t, ())
  decLockRef := fun t node _ => ((t.decLockRef cfg node).map Prod.fst).getD t
  swaUuidForLock := fun _ => none
  initLoadBack := fun t req => ((0, req.lastNode), t)
  availableAndEvictable := fun t => available + t.evictableSize
  swaAvailableAndEvictable := fun _ => 0
  slidingWindowSize := 0

variable {cfg : CacheConfig} {available : Int} {locks : List Nat}

theorem runInv_incLock (available : Int) {lt : Locked RadixCache Nat Unit} {node : Nat}
    (h : RunInv cfg ⟨lt.tree, locks⟩) (hnode : (lt.tree.nodes node).isSome) :
    RunInv cfg ⟨(incLock (radixTreeCache cfg available) lt node).1.tree, node :: locks⟩ ∧
      ((incLock (radixTreeCache cfg available) lt node).1.tree.nodes node).isSome := by
  have hvalid : CacheOp.Valid cfg ⟨lt.tree, locks⟩ (.incLockRef node) := hnode
  obtain ⟨r, heq, hr⟩ := h.step hvalid
  obtain ⟨⟨t, delta⟩, hinc, heq⟩ := bind_eq_some_iff.mp heq
  obtain rfl := Option.some.inj heq
  have htree : (incLock (radixTreeCache cfg available) lt node).1.tree = t := by
    show ((lt.tree.incLockRef cfg node).map Prod.fst).getD lt.tree = t
    rw [hinc]
    rfl
  rw [htree]
  refine ⟨hr, ?_⟩
  obtain ⟨c, hc⟩ := hr.locks.live node (mem_cons_self ..)
  cases hn : t.nodes node with
  | none =>
    rw [show t.view.core node = (t.nodes node).map TreeNode.toNodeCore from rfl, hn] at hc
    cases hc
  | some _ => rfl

theorem runInv_decLock (available : Int) {lt : Locked RadixCache Nat Unit} {node : Nat}
    (params : Option Unit) (h : RunInv cfg ⟨lt.tree, locks⟩) (hmem : node ∈ locks) :
    RunInv cfg
      ⟨(decLock (radixTreeCache cfg available) lt node params).tree, locks.erase node⟩ := by
  have hvalid : CacheOp.Valid cfg ⟨lt.tree, locks⟩ (.decLockRef node) := hmem
  obtain ⟨r, heq, hr⟩ := h.step hvalid
  obtain ⟨⟨t, delta⟩, hdec, heq⟩ := bind_eq_some_iff.mp heq
  obtain rfl := Option.some.inj heq
  have htree : (decLock (radixTreeCache cfg available) lt node params).tree = t := by
    show ((lt.tree.decLockRef cfg node).map Prod.fst).getD lt.tree = t
    rw [hdec]
    rfl
  rw [htree]
  exact hr

theorem loadBack_radix {s : Admission α RadixCache Nat Unit}
    (hload : s.req.needsHostLoadBack = false) :
    loadBack (radixTreeCache cfg available) s = s := by
  unfold loadBack
  rw [hload, if_neg Bool.false_ne_true]

variable [BudgetNumber α]

theorem addOneReqIgnoreEos_lastNode {N T R : Type} (acfg : AdderConfig α N) (C : TreeCache T N R)
    (a : PrefillAdder α N) (t : T) (req : Req N) (delayed : Bool) :
    (addOneReqIgnoreEos acfg C a t req delayed).2.1.lastNode = req.lastNode := by
  unfold addOneReqIgnoreEos commitIgnoreEos
  split
  · rfl
  · dsimp only
    split
    · rfl
    · split
      · rfl
      · cases acfg.dllmBlockSize <;> dsimp only <;> split_ifs <;> rfl

/-- After a call of `add_one_req` for a request whose last node is in the tree, the invariant of the
radix cache holds with one more outstanding lock on that node if the request was admitted, and with
the same ones if it was not. -/
theorem runInv_addOneReq {acfg : AdderConfig α Nat} {s : Admission α RadixCache Nat Unit}
    (h : RunInv cfg ⟨s.tree.tree, locks⟩) (hnode : (s.tree.tree.nodes s.req.lastNode).isSome)
    (hload : s.req.needsHostLoadBack = false) (delayed delayedAgain : Bool)
    (align : Option Nat) {s' : Admission α RadixCache Nat Unit}
    (hs' : s' = (addOneReq acfg (radixTreeCache cfg available) s delayed delayedAgain align).1) :
    (s'.adder.canRunList = s.adder.canRunList ∧ RunInv cfg ⟨s'.tree.tree, locks⟩) ∨
      (Appended s s' ∧ s'.req.lastNode = s.req.lastNode ∧
        RunInv cfg ⟨s'.tree.tree, s.req.lastNode :: locks⟩) := by
  obtain ⟨hinc, hnode'⟩ := runInv_incLock available h hnode
  have hsame : s' = s →
    (s'.adder.canRunList = s.adder.canRunList ∧ RunInv cfg ⟨s'.tree.tree, locks⟩) ∨
    (Appended s s' ∧ s'.req.lastNode = s.req.lastNode ∧
      RunInv cfg ⟨s'.tree.tree, s.req.lastNode :: locks⟩) := by
    rintro rfl
    exact Or.inl ⟨rfl, h⟩
  unfold addOneReq at hs'
  split at hs'
  · exact hsame hs'
  · split at hs'
    · next hbypass =>
      -- the lock of a disabled cache changes nothing
      have hdis : cfg.disable = true := (Bool.and_eq_true_iff.mp hbypass).2
      have htree : (incLock (radixTreeCache cfg available) s.tree s.req.lastNode).1.tree =
          s.tree.tree := by
        simp [incLock, radixTreeCache, RadixCache.incLockRef, hdis]
      rw [htree] at hinc
      cases addOneReqIgnoreEos_cases acfg (radixTreeCache cfg available) s delayedAgain with
      | untouched hlist _ =>
        rw [hs']
        exact Or.inl ⟨hlist, h⟩
      | committed range happ _ _ =>
        rw [hs']
        exact Or.inr ⟨happ, addOneReqIgnoreEos_lastNode .., hinc⟩
    · split at hs'
      · exact hsame hs'
      · split at hs'
        · exact hsame hs'
        · obtain ⟨s₁, hs₁, hcases⟩ := lockNode_cases acfg (radixTreeCache cfg available) s align
          have hs₁ : s₁ = acquired (radixTreeCache cfg available) s := by
            rcases hs₁ with hs₁ | hs₁
            · exact hs₁
            · rw [hs₁, loadBack_radix]
              exact hload
          rw [hs₁] at hcases
          rw [hs']
          rcases hcases with ⟨hlist, htree, -⟩ | ⟨happ, hlast, htree, -⟩
          · refine Or.inl ⟨hlist, ?_⟩
            have hdec := runInv_decLock available (some ()) hinc
              (mem_cons_self ..)
            rw [erase_cons_head] at hdec
            rw [htree]
            exact hdec
          · refine Or.inr ⟨happ, hlast, ?_⟩
            obtain ⟨hinc', -⟩ := runInv_incLock available hinc hnode'
            have hdec := runInv_decLock available (some ()) hinc'
              (mem_cons_self ..)
            rw [erase_cons_head] at hdec
            rw [htree, hlast]
            exact hdec

/-! ## A round of the scheduler -/

/-- A step of a round: a call of the cache, or `add_one_req` for the next request, with the free
tokens there are. -/
inductive RoundOp where
  | cache (op : CacheOp)
  | addOneReq (available : Int) (req : Req Nat) (delayed delayedAgain : Bool)
      (truncationAlignSize : Option Nat)

/-- The adder of a round, and the cache with its outstanding locks. -/
structure Round (α : Type) where
  adder : PrefillAdder α Nat
  cache : CacheRun

/-- One step. An admitted request leaves one outstanding lock. A call of `add_one_req` that raises
is a step as well; `preempt_to_schedule` and `add_chunked_req` are none. -/
def Round.step (cfg : CacheConfig) (acfg : AdderConfig α Nat) (r : Round α) : RoundOp →
    Option (Round α)
  | .cache op => (r.cache.step cfg op).map fun cache => { r with cache := cache }
  | .addOneReq available req delayed delayedAgain align =>
    let s := (addOneReq acfg (radixTreeCache cfg available) ⟨r.adder, ⟨r.cache.cache, []⟩,
      req⟩ delayed delayedAgain
      align).1
    some ⟨s.adder, s.tree.tree,
      (s.adder.canRunList.drop r.adder.canRunList.length).map Req.lastNode ++ r.cache.locks⟩

/-- The calls of the cache that take and release no lock. -/
def keepsLocks : CacheOp → Bool
  | .incLockRef _ | .decLockRef _ | .reset _ => false
  | _ => true

/-- The last node of a request is in the tree, and locks are only taken by `add_one_req`. -/
def RoundOp.Valid (cfg : CacheConfig) (r : Round α) : RoundOp → Prop
  | .cache op => keepsLocks op ∧ op.Valid cfg r.cache
  | .addOneReq _ req _ _ _ =>
    (r.cache.cache.nodes req.lastNode).isSome ∧ req.needsHostLoadBack = false

instance (cfg : CacheConfig) (r : Round α) : DecidablePred (RoundOp.Valid cfg r)
  | .cache _ | .addOneReq .. => inferInstanceAs (Decidable (_ ∧ _))

/-- What a round leaves: the locks of the requests that were admitted, on top of the earlier
ones. -/
structure Round.After (cfg : CacheConfig) (r r' : Round α) (admitted : List (Req Nat)) : Prop where
  inv : RunInv cfg r'.cache
  canRunList : r'.adder.canRunList = r.adder.canRunList ++ admitted
  locks : r'.cache.locks = (admitted.map Req.lastNode).reverse ++ r.cache.locks

theorem locks_of_keepsLocks {op : CacheOp} (hop : keepsLocks op) {c c' : CacheRun}
    (hc : c.step cfg op = some c') :
    c'.locks = c.locks := by
  cases op <;> cases hop
  all_goals
    obtain ⟨t, -, hc⟩ := bind_eq_some_iff.mp hc
    obtain rfl := Option.some.inj hc
    rfl

theorem Round.After.step {acfg : AdderConfig α Nat} {r₀ r : Round α} {op : RoundOp}
    (h : ∃ admitted, Round.After cfg r₀ r admitted) (hvalid : op.Valid cfg r) :
    ∃ r', r.step cfg acfg op = some r' ∧ ∃ admitted, Round.After cfg r₀ r' admitted := by
  obtain ⟨admitted, h⟩ := h
  cases op with
  | cache op =>
    obtain ⟨c, hc, hinv⟩ := h.inv.step hvalid.2
    exact ⟨{ r with cache := c }, congrArg (Option.map _) hc, admitted, hinv, h.canRunList,
      (locks_of_keepsLocks hvalid.1 hc).trans h.locks⟩
  | addOneReq available req delayed delayedAgain align =>
    refine ⟨_, rfl, ?_⟩
    rcases runInv_addOneReq (s :=
      ⟨r.adder, ⟨r.cache.cache, []⟩, req⟩) h.inv hvalid.1 hvalid.2 delayed delayedAgain align
      rfl with ⟨hlist, hinv⟩ | ⟨happ, hlast, hinv⟩
    · refine ⟨admitted, ?_, hlist.trans h.canRunList, ?_⟩
      · rw [hlist, drop_length]
        exact hinv
      · rw [hlist, drop_length]
        exact h.locks
    · refine ⟨_, ?_, happ.trans ((congrArg (· ++ _) h.canRunList).trans (append_assoc ..)), ?_⟩
      · rw [happ, drop_left, map_singleton, hlast]
        exact hinv
      · rw [happ, drop_left, map_append, reverse_append, append_assoc, ← h.locks]
        rfl

/-- A round goes through, with one more outstanding lock for each admitted request and no other, and
nothing that happens in it takes the last node of an admitted request out of the tree. -/
theorem round_locks {acfg : AdderConfig α Nat} {r : Round α} (h : RunInv cfg r.cache)
    {ops : List RoundOp} (hvalid : Along (Round.step cfg acfg) (fun r op => op.Valid cfg r) r ops) :
    ∃ r', run (Round.step cfg acfg) r ops = some r' ∧ ∃ admitted, Round.After cfg r r' admitted ∧
      ∀ req ∈ admitted, (r'.cache.cache.nodes req.lastNode).isSome := by
  obtain ⟨r', hrun, admitted, hafter⟩ :=
    run_of_invariant (fun r' => ∃ admitted, Round.After cfg r r' admitted)
    (fun _ _ h hvalid => Round.After.step h hvalid) ⟨[], h, (append_nil _).symm, rfl⟩ hvalid
  refine ⟨r', hrun, admitted, hafter, fun req hreq => ?_⟩
  have hmem : req.lastNode ∈ r'.cache.locks := by
    rw [hafter.locks]
    exact mem_append_left _ (mem_reverse.mpr (List.mem_map_of_mem hreq))
  obtain ⟨c, hc⟩ := hafter.inv.locks.live _ hmem
  obtain ⟨n, hn, -⟩ := map_eq_some_iff.mp hc
  exact isSome_of_eq_some hn

/-- A request that shares its first page with a stored key is admitted, and then everything else is
evicted. -/
def sampleRound : List RoundOp :=
  [.cache (.insert 1 { tokenIds := [1, 2, 3, 4] } [2, 3, 4, 5] 0 false),
    .cache (.matchPrefix 2 { tokenIds := [1, 2, 9, 9] }),
    .addOneReq 100
    { rid := 0, originInputLen := 4, outputLen := 0, fullLen := 4, prefixLen := 2,
                     maxNewTokens := 5, lastNode := 2, bestMatchNode := 2 } false false none,
    .cache (.evict (EvictionStrategy.order .lru) 4)]

def sampleAdder : AdderConfig Int Nat where
  pageSize := 2
  pageSize_pos := Nat.two_pos
  newTokenRatio := 1
  runningReqs := none

/-- The request is admitted, and its node is locked. -/
theorem round_locks_sample :
    let r : Round Int :=
      ⟨PrefillAdder.init sampleAdder 1000 none 0 none 0, CacheRun.start sampleConfig 0⟩
    ∃ r', run (Round.step sampleConfig sampleAdder) r sampleRound = some r' ∧
      r'.adder.canRunList.map Req.lastNode = [2] ∧ r'.cache.locks = [2] ∧
      ∃ admitted, Round.After sampleConfig r r' admitted ∧
        ∀ req ∈ admitted, (r'.cache.cache.nodes req.lastNode).isSome := by
  intro r
  have hfields : ((run (Round.step sampleConfig sampleAdder) r sampleRound).map fun r' =>
      (r'.adder.canRunList.map Req.lastNode, r'.cache.locks)) = some ([2], [2]) := by decide +kernel
  obtain ⟨r', hrun, hafter⟩ :=
    @round_locks Int sampleConfig _ sampleAdder r (runInv_reset sampleConfig 0 _)
    sampleRound (by decide +kernel)
  rw [hrun, map_some, Option.some.injEq, Prod.mk.injEq] at hfields
  exact ⟨r', hrun, hfields.1, hfields.2, hafter⟩

end Sglang.Managers.PrefillAdder
