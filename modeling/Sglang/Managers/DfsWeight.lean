import Sglang.Lib.Forest
import Sglang.MemCache.RadixCacheInvariant

/-!
# Ordering by Depth-First Weight

Model of `SchedulePolicy._compute_prefix_matches` and `_sort_by_dfs_weight`
(`managers/schedule_policy.py`). A pass looks up every waiting request in the cache, which may cut
nodes that earlier requests of the pass recorded, and the queue is then emptied and rebuilt from the
tree.

- `calcWeight_spec`: the weight of a node is the number of requests in its subtree,
- `getDfsPriority_spec`: a call appends the requests of a subtree, in depth-first order,
- `matchAll_spec`: recorded nodes stay in the tree,
- `dfsWeight_arranged`: the rebuilt queue is a permutation in depth-first order at every node.
-/

namespace Sglang.Managers.DfsWeight

open List Option Function
open Lib Lib.Forest MemCache MemCache.RadixCache

/-! ## Section 1: The lookups of a pass -/

/-- What a waiting request carries for the lookups. -/
structure WaitingReq where
  rid : String
  originInputIds : List Int
  outputIds : List Int
  extraKey : Option String := none
  prefixIndices : List Nat := []
  lastNode : Nat := 0

/-- The module's two thresholds and `SGLANG_RADIX_FORCE_MISS`. -/
structure MatchConfig where
  checkThreshold : Int := 32
  deprioritizeThreshold : Int := 32
  forceMiss : Bool := false

/-- `time.monotonic()` in the calls for one request. -/
structure MatchTimes where
  treeMatch : Int
  queueMatch : Int
  queueInsert : Int

/-- `zero_match_result` of a radix cache. -/
def zeroMatchResult (s : RadixCache) : MatchResult := ⟨[], s.rootNode⟩

/-- `match_prefix`, with the miss that the environment may force. -/
def matchOrMiss (cfg : CacheConfig) (mc : MatchConfig) (now : Int) (s : RadixCache)
    (key : RadixKey) :
    Option (RadixCache × MatchResult) := do
  let (s, result) ← s.matchPrefix cfg now key
  some (s, if mc.forceMiss then zeroMatchResult s else result)

/-- `RadixKey(token_ids=r.origin_input_ids + r.output_ids, extra_key=r.extra_key)`. -/
def WaitingReq.key (r : WaitingReq) : RadixKey :=
  { tokenIds := r.originInputIds ++ r.outputIds, extraKey := r.extraKey }

/-- `match_prefix_for_req`: the request records what was found. -/
def matchPrefixForReq (cfg : CacheConfig) (mc : MatchConfig) (now : Int) (s : RadixCache)
    (r : WaitingReq) :
    Option (RadixCache × WaitingReq) := do
  let (s, result) ← matchOrMiss cfg mc now s r.key
  some (s, { r with prefixIndices := result.deviceIndices, lastNode := result.lastDeviceNode })

/-- `RadixCache.create_simulated()`, the cache behind `waiting_queue_radix_tree`. -/
def simulatedConfig : CacheConfig := { pageSize := 1, pageSize_pos := Nat.one_pos }

/-- The caches of a pass and the requests it put off. -/
structure MatchPass where
  treeCache : RadixCache
  waitingQueueRadixTree : RadixCache
  temporaryDeprioritized : List String := []

/-- In-batch prefix caching: put off a request whose prefix an earlier one of the queue has. -/
def checkInBatch (mc : MatchConfig) (times : MatchTimes) (st : MatchPass) (r : WaitingReq) :
    Option MatchPass :=
  if (r.prefixIndices.length : Int) ≤ mc.checkThreshold then do
    let (tree, result) ← matchOrMiss simulatedConfig mc times.queueMatch st.waitingQueueRadixTree
      r.key
    if mc.deprioritizeThreshold ≤ (result.deviceIndices.length : Int) then
      some { st with
        waitingQueueRadixTree := tree
        temporaryDeprioritized := r.rid :: st.temporaryDeprioritized }
    else do
      let (tree, inserted) ← tree.insert simulatedConfig times.queueInsert r.key
        (List.replicate (r.originInputIds ++ r.outputIds).length 0)
      let _ ← inserted
      some { st with waitingQueueRadixTree := tree }
  else some st

/-- One request of the loop of `_compute_prefix_matches`. -/
def matchReq (cfg : CacheConfig) (mc : MatchConfig) (times : MatchTimes) (st : MatchPass)
    (r : WaitingReq) :
    Option (MatchPass × WaitingReq) := do
  let (tree, r) ← matchPrefixForReq cfg mc times.treeMatch st.treeCache r
  let st ← checkInBatch mc times { st with treeCache := tree } r
  some (st, r)

/-- The loop of `_compute_prefix_matches`; `clock i` are the times of request `i`. -/
def matchAll (cfg : CacheConfig) (mc : MatchConfig) (clock : Nat → MatchTimes) :
    Nat → MatchPass → List WaitingReq → Option (MatchPass × List WaitingReq)
  | _, st, [] => some (st, [])
  | i, st, r :: rest => do
    let (st, r) ← matchReq cfg mc (clock i) st r
    let (st, rest) ← matchAll cfg mc clock (i + 1) st rest
    some (st, r :: rest)

/-- `_compute_prefix_matches`; the requests of the queue are updated in place. -/
def computePrefixMatches (cfg : CacheConfig) (mc : MatchConfig) (resetTime : Int)
    (clock : Nat → MatchTimes) (treeCache waitingQueueRadixTree : RadixCache)
    (waitingQueue : List WaitingReq) :
    Option (MatchPass × List WaitingReq) :=
  matchAll cfg mc clock 0
    { treeCache, waitingQueueRadixTree := waitingQueueRadixTree.reset simulatedConfig resetTime }
    waitingQueue

/-! ## Section 2: The ordering -/

/-- `last_node_to_reqs[req.last_node].append(req)` for the requests of the queue. -/
def lastNodeToReqs (waitingQueue : List WaitingReq) : Nat → List WaitingReq :=
  waitingQueue.foldl (fun d req => update d req.lastNode (d req.lastNode ++ [req])) fun _ => []

/-- `_calc_weight`; `values n` are the children of node `n` in the order of its dictionary. -/
def calcWeight (values : Nat → List Nat) : Nat → Nat → (Nat → Nat) → Option (Nat → Nat)
  | 0, _, _ => none
  | fuel + 1, curNode, nodeToWeight =>
    (values curNode).foldlM (fun w child => do
      let w ← calcWeight values fuel child w
      some (update w curNode (w curNode + w child))) nodeToWeight

/-- `children.sort(key=lambda x: -node_to_priority[x])`. -/
def sortChildren (nodeToPriority : Nat → Nat) (children : List Nat) : List Nat :=
  children.mergeSort fun x y => decide (nodeToPriority y ≤ nodeToPriority x)

/-- `_get_dfs_priority`: the queue after the call. -/
def getDfsPriority (values : Nat → List Nat) (nodeToPriority : Nat → Nat)
    (lastNodeToReqs : Nat → List WaitingReq) : Nat → Nat → List WaitingReq →
    Option (List WaitingReq)
  | 0, _, _ => none
  | fuel + 1, curNode, q => do
    let q ← (sortChildren nodeToPriority (values curNode)).foldlM
      (fun q child => getDfsPriority values nodeToPriority lastNodeToReqs fuel child q) q
    some (q ++ lastNodeToReqs curNode)

/-- `_sort_by_dfs_weight`: the queue it leaves. A path from the root visits no node twice, so the
number of nodes ever created bounds both recursions. -/
def sortByDfsWeight (treeCache : RadixCache) (values : Nat → List Nat)
    (waitingQueue : List WaitingReq) :
    Option (List WaitingReq) := do
  let lastNodeToReqs := lastNodeToReqs waitingQueue
  let nodeToWeight ← calcWeight values (treeCache.counter + 1) treeCache.rootNode
    fun node => (lastNodeToReqs node).length
  getDfsPriority values nodeToWeight lastNodeToReqs (treeCache.counter + 1) treeCache.rootNode []

/-! ## Section 3: The recursions over a forest -/

theorem lastNodeToReqs_eq (waitingQueue : List WaitingReq) (n : Nat) :
    lastNodeToReqs waitingQueue n = waitingQueue.filter fun r => r.lastNode = n := by
  have hloop : ∀ (queue : List WaitingReq) (d : Nat → List WaitingReq),
      queue.foldl (fun d req => update d req.lastNode (d req.lastNode ++ [req])) d n =
        d n ++ queue.filter fun r => r.lastNode = n := by
    intro queue
    induction queue with
    | nil => simp
    | cons r rest ih =>
      intro d
      rw [foldl_cons, ih, filter_cons]
      by_cases h : r.lastNode = n
      · subst h
        simp
      · rw [update_of_ne (Ne.symm h)]
        simp [h]
  exact (hloop waitingQueue fun _ => []).trans (nil_append _)

section Recursions

variable {values : Nat → List Nat} {height : Nat → Nat} {queue : List WaitingReq}

def ownCount (queue : List WaitingReq) (n : Nat) : Nat := queue.countP fun r => r.lastNode = n

open Classical in
/-- Number of requests in the subtree of a node. -/
noncomputable def subtreeCount (values : Nat → List Nat) (queue : List WaitingReq) (n : Nat) :
    Nat :=
  queue.countP fun r => Under values n r.lastNode

theorem subtreeCount_eq (hf : IsForest values height) (n : Nat) :
    subtreeCount values queue n = ownCount queue n +
      ((values n).map (subtreeCount values queue)).sum :=
  hf.count_subtree WaitingReq.lastNode queue n

/-- The loop of `_calc_weight` over the children, once calls for children are right. -/
theorem calcWeight_children (hf : IsForest values height) {fuel n : Nat}
    (hcall : ∀ {c w}, c ∈ values n → (∀ i, Under values c i → w i = ownCount queue i) →
      ∃ w', calcWeight values fuel c w = some w' ∧
      (∀ i, Under values c i → w' i = subtreeCount values queue i) ∧ ∀ i, ¬Under values c i →
      w' i = w i) {cs : List Nat} :
    ∀ {w : Nat → Nat}, (∀ c ∈ cs, c ∈ values n) → cs.Nodup →
      (∀ c ∈ cs, ∀ i, Under values c i → w i = ownCount queue i) →
      ∃ w', cs.foldlM (fun w child => do
          let w ← calcWeight values fuel child w
          some (update w n (w n + w child))) w = some w' ∧
        w' n = w n + (cs.map (subtreeCount values queue)).sum ∧
        (∀ c ∈ cs, ∀ i, Under values c i → w' i = subtreeCount values queue i) ∧
        ∀ i, i ≠ n → (∀ c ∈ cs, ¬Under values c i) → w' i = w i := by
  induction cs with
  | nil =>
    intro w _ _ _
    exact ⟨w, rfl, rfl, fun c hc => absurd hc not_mem_nil, fun _ _ _ => rfl⟩
  | cons c cs ih =>
    intro w hmem hnodup hw
    obtain ⟨hnot, hnodup⟩ := nodup_cons.mp hnodup
    have hc := hmem c mem_cons_self
    obtain ⟨w₁, hw₁, htotal, hsame⟩ := hcall hc (hw c mem_cons_self)
    have hn : ¬Under values c n := hf.not_under_child hc
    have hother : ∀ d ∈ cs, ∀ i, Under values d i → i ≠ n ∧ ¬Under values c i := by
      intro d hd i hi
      have hdn := hmem d (mem_cons_of_mem _ hd)
      constructor
      · rintro rfl
        exact hf.not_under_child hdn hi
      · intro hci
        obtain rfl := hf.apart hc hdn hci hi
        exact hnot hd
    obtain ⟨w', hloop, hat, hbelow, hrest⟩ :=
      ih (w := update w₁ n (w₁ n + w₁ c)) (fun d hd => hmem d (mem_cons_of_mem _ hd)) hnodup <| by
        intro d hd i hi
        obtain ⟨hne, hci⟩ := hother d hd i hi
        rw [update_of_ne hne, hsame i hci]
        exact hw d (mem_cons_of_mem _ hd) i hi
    refine ⟨w', ?_, ?_, ?_, ?_⟩
    · rw [foldlM_cons, hw₁]
      exact hloop
    · rw [hat, update_self, hsame n hn, htotal c (under_self c), map_cons, sum_cons, Nat.add_assoc]
    · intro d hd i hi
      rcases mem_cons.mp hd with rfl | hd
      · -- the later children do not touch the subtree of this one
        have hne : i ≠ n := by
          rintro rfl
          exact hn hi
        rw [hrest i hne fun e he hei => (hother e he i hei).2 hi, update_of_ne hne]
        exact htotal i hi
      · exact hbelow d hd i hi
    · intro i hne hnone
      rw [hrest i hne fun d hd => hnone d (mem_cons_of_mem _ hd), update_of_ne hne]
      exact hsame i (hnone c mem_cons_self)

/-- `_calc_weight` counts the requests of every subtree below the node, and leaves the rest
alone. -/
theorem calcWeight_spec (hf : IsForest values height) (queue : List WaitingReq) {fuel : Nat} :
    ∀ {n : Nat} {w : Nat → Nat}, height n < fuel →
    (∀ i, Under values n i → w i = ownCount queue i) → ∃ w', calcWeight values fuel n w = some w' ∧
    (∀ i, Under values n i → w' i = subtreeCount values queue i) ∧ ∀ i, ¬Under values n i →
    w' i = w i := by
  induction fuel with
  | zero =>
    intro n w hfuel
    exact absurd hfuel (Nat.not_lt_zero _)
  | succ fuel ih =>
    intro n w hfuel hw
    obtain ⟨w', hloop, hat, hbelow, hrest⟩ := calcWeight_children hf
      (fun hc hown => ih (by have := hf.height_lt hc; omega) hown) (fun _ hc => hc) (hf.nodup n)
      fun c hc i hi => hw i (under_of_child hc hi)
    refine ⟨w', hloop, ?_, ?_⟩
    · intro i hi
      rcases under_iff.mp hi with rfl | ⟨c, hc, hi⟩
      · rw [hat, hw i hi, subtreeCount_eq hf]
      · exact hbelow c hc i hi
    · intro i hi
      apply hrest
      · rintro rfl
        exact hi (under_self i)
      · intro c hc hci
        exact hi (under_of_child hc hci)

theorem sortChildren_perm (weight : Nat → Nat) (cs : List Nat) : (sortChildren weight cs).Perm cs :=
  mergeSort_perm _ _

theorem sortChildren_pairwise (weight : Nat → Nat) (cs : List Nat) :
    (sortChildren weight cs).Pairwise fun c c' => weight c' ≤ weight c := by
  have hsorted : (sortChildren weight cs).Pairwise fun x y => decide (weight y ≤ weight x) = true :=
    pairwise_mergeSort
      (fun a b c hab hbc => decide_eq_true ((of_decide_eq_true hbc).trans (of_decide_eq_true hab)))
      (fun a b => by simpa using Nat.le_total (weight b) (weight a)) cs
  exact hsorted.imp of_decide_eq_true

theorem getDfsPriority_children {weight : Nat → Nat} {reqs : Nat → List WaitingReq} {fuel : Nat}
    {block : Nat → List WaitingReq} {cs : List Nat}
    (hcall : ∀ c ∈ cs, ∀ q, getDfsPriority values weight reqs fuel c q = some (q ++ block c)) :
    ∀ q, cs.foldlM (fun q child => getDfsPriority values weight reqs fuel child q) q =
      some (q ++ cs.flatMap block) := by
  induction cs with
  | nil =>
    intro q
    rw [flatMap_nil, append_nil]
    rfl
  | cons c cs ih =>
    intro q
    rw [foldlM_cons, hcall c mem_cons_self, bind_eq_bind, bind_some,
      ih fun d hd => hcall d (mem_cons_of_mem _ hd), flatMap_cons, append_assoc]

open Classical in
/-- `_get_dfs_priority` appends the requests of the subtree, in depth-first order at each of its
nodes. -/
theorem getDfsPriority_spec (hf : IsForest values height) (queue : List WaitingReq)
    (weight : Nat → Nat) {fuel : Nat} :
    ∀ {n : Nat}, height n < fuel → ∃ block : List WaitingReq,
      (∀ q, getDfsPriority values weight (lastNodeToReqs queue) fuel n q = some (q ++ block)) ∧
      block.Perm (queue.filter fun r => Under values n r.lastNode) ∧
      ∀ m, Under values n m →
        ArrangedAt (Under values) weight WaitingReq.lastNode m
        (sortChildren weight (values m)) block := by
  induction fuel with
  | zero =>
    intro n hfuel
    exact absurd hfuel (Nat.not_lt_zero _)
  | succ fuel ih =>
    intro n hfuel
    have hcalls : ∀ c ∈ values n, ∃ block : List WaitingReq,
        (∀ q, getDfsPriority values weight (lastNodeToReqs queue) fuel c q = some (q ++ block)) ∧
        block.Perm (queue.filter fun r => Under values c r.lastNode) ∧
        ∀ m, Under values c m →
          ArrangedAt (Under values) weight WaitingReq.lastNode m
          (sortChildren weight (values m)) block := by
      intro c hc
      have := hf.height_lt hc
      exact ih (by omega)
    -- the block of a node: those of its children by weight, then its own requests
    choose! block hblock hperm harranged using hcalls
    have hsorted := sortChildren_perm weight (values n)
    have hunder : ∀ c ∈ values n, ∀ r ∈ block c, Under values c r.lastNode := by
      intro c hc r hr
      have hmem := (hperm c hc).mem_iff.mp hr
      simpa using (mem_filter.mp hmem).2
    have hown : ∀ r ∈ lastNodeToReqs queue n, r.lastNode = n := by
      intro r hr
      rw [lastNodeToReqs_eq] at hr
      simpa using (mem_filter.mp hr).2
    refine ⟨(sortChildren weight (values n)).flatMap block ++ lastNodeToReqs queue n, ?_, ?_, ?_⟩
    · intro q
      show (do
        let q ← (sortChildren weight (values n)).foldlM
          (fun q child => getDfsPriority values weight (lastNodeToReqs queue) fuel child q) q
        some (q ++ lastNodeToReqs queue n)) = _
      rw [getDfsPriority_children fun c hc => hblock c (hsorted.mem_iff.mp hc)]
      exact congrArg some (append_assoc _ _ _)
    · rw [lastNodeToReqs_eq]
      refine List.Perm.trans ?_ (hf.subtree_perm WaitingReq.lastNode queue hsorted)
      exact (List.Perm.flatMap_left _ fun c hc => hperm c (hsorted.mem_iff.mp hc)).append_right _
    · intro m hm
      have hdown : ∀ {k : Nat}, ∀ c ∈ sortChildren weight (values k), ∀ x, Under values c x →
          Under values k x :=
        fun c hc x hx => under_of_child ((sortChildren_perm weight _).mem_iff.mp hc) hx
      rcases under_iff.mp hm with rfl | ⟨c, hc, hm⟩
      · apply ArrangedAt.of_blocks (sortChildren_pairwise weight _) ?_ hown under_self hdown ?_ ?_
        · intro c hc r hr
          have hc := hsorted.mem_iff.mp hc
          refine ⟨hunder c hc r hr, ?_⟩
          intro heq
          exact hf.not_under_child hc (heq ▸ hunder c hc r hr)
        · intro c hc c' hc' x h h'
          exact hf.apart (hsorted.mem_iff.mp hc) (hsorted.mem_iff.mp hc') h h'
        · intro c hc
          exact hf.not_under_child (hsorted.mem_iff.mp hc)
      · -- the node lies in the block of one child
        obtain ⟨l₁, l₂, hsplit⟩ := append_of_mem (hsorted.mem_iff.mpr hc)
        have hnodup : (l₁ ++ c :: l₂).Nodup := hsplit ▸ hsorted.nodup_iff.mpr (hf.nodup n)
        have honce : c ∉ l₁ ++ l₂ := (nodup_cons.mp (nodup_middle.mp hnodup)).1
        have hother : ∀ d, d ∈ l₁ ∨ d ∈ l₂ → ∀ r ∈ block d, ¬Under values m r.lastNode := by
          intro d hd r hr hmr
          have hdn : d ∈ values n := hsorted.mem_iff.mp (by rw [hsplit]; simp; tauto)
          obtain rfl := hf.apart hc hdn (hm.trans hmr) (hunder d hdn r hr)
          exact honce (mem_append.mpr hd)
        rw [hsplit, flatMap_append, flatMap_cons, append_assoc, append_assoc, ← append_assoc]
        apply (harranged c hc m hm).extend under_self hdown
        rintro r (hr | hr)
        · obtain ⟨d, hd, hr⟩ := mem_flatMap.mp hr
          exact hother d (.inl hd) r hr
        · rcases mem_append.mp hr with hr | hr
          · obtain ⟨d, hd, hr⟩ := mem_flatMap.mp hr
            exact hother d (.inr hd) r hr
          · intro hmr
            rw [hown r hr] at hmr
            exact hf.not_under_child hc (hm.trans hmr)

end Recursions

/-! ## Section 4: The radix tree as a forest -/

/-- The entries of a node's dictionary, in no particular order. -/
def childValues (s : RadixCache) (n : Nat) : List Nat :=
  match s.nodes n with
  | none => []
  | some nd => nd.children.entries.map Sigma.snd

/-- `x` lies in the subtree of `n`. -/
def Below (s : RadixCache) (n x : Nat) : Bool := decide (n = s.rootNode) || s.InSubtree n x

section Tree

variable {ps : Nat} {s : RadixCache}

theorem mem_childValues (inv : TreeInv ps s.view) {p c : Nat} :
    c ∈ childValues s p ↔ ∃ n, s.view.core c = some n ∧ n.parent = some p := by
  constructor
  · intro h
    unfold childValues at h
    cases hp : s.nodes p with
    | none => simp [hp] at h
    | some pn =>
      rw [hp] at h
      obtain ⟨⟨k, c⟩, hmem, rfl⟩ := List.mem_map.mp h
      obtain ⟨n, hn, hpar, -⟩ := inv.of_lookup (core_at hp) (AList.mem_lookup_iff.mpr hmem)
      exact ⟨n, hn, hpar⟩
  · rintro ⟨n, hn, hpar⟩
    obtain ⟨pn, hpn⟩ := inv.parent_live hn hpar
    obtain ⟨pnn, hpnn, rfl⟩ := exists_node hpn
    have hlookup := inv.lookup_childKey hn hpar hpn
    unfold childValues
    rw [hpnn]
    exact List.mem_map.mpr ⟨⟨_, c⟩, AList.mem_lookup_iff.mp hlookup, rfl⟩

theorem nodup_childValues (inv : TreeInv ps s.view) (p : Nat) : (childValues s p).Nodup := by
  unfold childValues
  cases hp : s.nodes p with
  | none => exact nodup_nil
  | some pn =>
    apply List.Nodup.map_on ?_ pn.children.nodupKeys.nodup
    rintro ⟨k, c⟩ hk ⟨k', c'⟩ hk' heq
    obtain rfl : c = c' := heq
    obtain ⟨n, hn, -, hkey⟩ := inv.of_lookup (core_at hp) (AList.mem_lookup_iff.mpr hk)
    obtain ⟨n', hn', -, hkey'⟩ := inv.of_lookup (core_at hp) (AList.mem_lookup_iff.mpr hk')
    rw [hn] at hn'
    cases hn'
    rw [← hkey, ← hkey']

def heightOf (s : RadixCache) (n : Nat) : Nat := s.counter - (s.view.path n).length

theorem isForest_tree (inv : TreeInv ps s.view) {values : Nat → List Nat}
    (hvalues : ∀ n, (values n).Perm (childValues s n)) : IsForest values (heightOf s) where
  nodup n := (hvalues n).nodup_iff.mpr (nodup_childValues inv n)
  height_lt := by
    intro p c hc
    obtain ⟨n, hn, hpar⟩ := (mem_childValues inv).mp ((hvalues p).mem_iff.mp hc)
    have hpath := inv.path_child hn hpar
    have hle : (s.view.path c).length ≤ s.counter :=
      inv.trie.path_length_le (inv.path_up hn) inv.bound
    unfold heightOf
    rw [hpath, length_cons] at *
    omega
  parent_unique := by
    intro p p' c hc hc'
    obtain ⟨n, hn, hpar⟩ := (mem_childValues inv).mp ((hvalues p).mem_iff.mp hc)
    obtain ⟨n', hn', hpar'⟩ := (mem_childValues inv).mp ((hvalues p').mem_iff.mp hc')
    rw [hn] at hn'
    cases hn'
    exact Option.some.inj (hpar.symm.trans hpar')

/-- For nodes of the tree, the subtree is what the climb to the root says. -/
theorem below_iff (inv : TreeInv ps s.view) {values : Nat → List Nat}
    (hvalues : ∀ n, (values n).Perm (childValues s n)) {n x : Nat} {nx : NodeCore}
    (hx : s.view.core x = some nx) : Below s n x = true ↔ Under values n x := by
  have hmem : ∀ {p c}, c ∈ values p ↔ ∃ n, s.view.core c = some n ∧ n.parent = some p :=
    fun {p _} => (hvalues p).mem_iff.trans (mem_childValues inv)
  have hbelow : Below s n x = true ↔ n = s.view.rootNode ∨ n ∈ s.view.path x := by
    unfold Below RadixCache.InSubtree
    rw [Bool.or_eq_true, decide_eq_true_iff, decide_eq_true_iff]
    rfl
  rw [hbelow]
  clear hbelow
  constructor
  · intro h
    refine inv.trie.induction_on
      (P := fun x => n = s.view.rootNode ∨ n ∈ s.view.path x → Under values n x) ?_ ?_ x _
      (TreeInv.trie_at hx) h
    · rintro (rfl | hroot)
      · exact under_self _
      · rw [inv.path_eq .root] at hroot
        cases hroot
    · intro i c p hc hp _ ih h
      obtain ⟨ni, hi, rfl⟩ := skeleton_some hc
      have hedge : i ∈ values p := hmem.mpr ⟨ni, hi, hp⟩
      rw [inv.path_child hi hp] at h
      rcases h with h | h
      · exact (ih (.inl h)).tail hedge
      · rcases mem_cons.mp h with rfl | h
        · exact under_self _
        · exact (ih (.inr h)).tail hedge
  · intro h
    induction h generalizing nx with
    | refl =>
      by_cases hroot : n = s.view.rootNode
      · exact .inl hroot
      · obtain ⟨p, pn, hp, -⟩ := inv.exists_parent hx hroot
        rw [inv.path_child hx hp]
        exact .inr mem_cons_self
    | tail _ hc ih =>
      obtain ⟨c, hc, hp⟩ := hmem.mp hc
      obtain ⟨pn, hpn⟩ := inv.parent_live hc hp
      rw [inv.path_child hc hp]
      exact (ih hpn).imp_right (mem_cons_of_mem _)

open Classical in
/-- Requests at nodes of the tree come out as a permutation in depth-first order. -/
theorem sortByDfsWeight_spec (inv : TreeInv ps s.view) {values : Nat → List Nat}
    (hvalues : ∀ n, (values n).Perm (childValues s n)) {queue : List WaitingReq}
    (hlive : ∀ r ∈ queue, ∃ n, s.view.core r.lastNode = some n) :
    ∃ q, sortByDfsWeight s values queue = some q ∧ q.Perm queue ∧
      ∀ n nd, s.view.core n = some nd → ArrangedAt (fun m x => Below s m x = true)
        (fun c => queue.countP fun r => Below s c r.lastNode) WaitingReq.lastNode n
        (childValues s n) q := by
  have hf := isForest_tree inv hvalues
  have hfuel : heightOf s s.rootNode < s.counter + 1 := Nat.lt_succ_of_le (Nat.sub_le _ _)
  obtain ⟨w, hw, htotal, -⟩ :=
    calcWeight_spec hf queue (w := fun node => (lastNodeToReqs queue node).length)
    hfuel fun i _ => by
      rw [lastNodeToReqs_eq]
      exact countP_eq_length_filter.symm
  obtain ⟨block, hblock, hperm, harranged⟩ := getDfsPriority_spec hf queue w hfuel
  have hunder : ∀ r ∈ queue, ∀ m, Below s m r.lastNode = true ↔ Under values m r.lastNode := by
    intro r hr m
    obtain ⟨n, hn⟩ := hlive r hr
    exact below_iff inv hvalues hn
  have hroot : ∀ x nx, s.view.core x = some nx → Under values s.rootNode x := by
    intro x nx hx
    refine (below_iff inv hvalues hx).mp ?_
    unfold Below
    rw [decide_eq_true rfl, Bool.true_or]
  have hall : block.Perm queue := by
    refine hperm.trans (List.Perm.of_eq (filter_eq_self.mpr ?_))
    intro r hr
    obtain ⟨n, hn⟩ := hlive r hr
    rw [decide_eq_true_iff]
    exact hroot _ n hn
  refine ⟨block, ?_, hall, ?_⟩
  · unfold sortByDfsWeight
    dsimp only
    rw [hw, bind_eq_bind, bind_some, hblock, nil_append]
  · intro n nd hn
    refine (harranged n (hroot n nd hn)).congr ?_ ?_ ?_
    · intro c hc
      exact (sortChildren_perm w _).mem_iff.mpr ((hvalues n).mem_iff.mpr hc)
    · intro r hr m
      exact (hunder r (hall.mem_iff.mp hr) m).symm
    · intro c hc
      obtain ⟨nc, hnc, -⟩ := (mem_childValues inv).mp hc
      rw [htotal c (hroot c nc hnc)]
      apply countP_congr
      intro r hr
      rw [decide_eq_true_iff]
      exact (hunder r hr c).symm

end Tree

/-! ## Section 5: A whole pass -/

section Pass

variable {cfg : CacheConfig} {s : RadixCache} {locks : List Nat}

theorem matchOrMiss_spec (mc : MatchConfig) (now : Int) (h : RunInv cfg ⟨s, locks⟩)
    (key : RadixKey) :
    ∃ s' result, matchOrMiss cfg mc now s key = some (s', result) ∧ Reshape cfg s s' ∧
    RunInv cfg ⟨s', locks⟩ ∧ ∃ n, s'.view.core result.lastDeviceNode = some n := by
  have hmatch : ∃ s' result, s.matchPrefix cfg now key = some (s', result) ∧ Reshape cfg s s' ∧
      RunInv cfg ⟨s', locks⟩ ∧ ∃ n, s'.view.core result.lastDeviceNode = some n := by
    cases hdis : cfg.disable with
    | true =>
      obtain ⟨n, hn, -⟩ := h.tree.root_live
      exact ⟨s, _, matchPrefix_disabled now s hdis key, .refl, h, n, hn⟩
    | false =>
      obtain ⟨s', last, nl, heq, hre, hstop⟩ := matchPrefix_spec now h.tree hdis key
      exact ⟨s', _, heq, hre, h.reshape hdis hre, nl, hstop.node_at⟩
  obtain ⟨s', result, heq, hre, h', hlast⟩ := hmatch
  refine ⟨s', if mc.forceMiss then zeroMatchResult s' else result, ?_, hre, h', ?_⟩
  · unfold matchOrMiss
    rw [heq]
    rfl
  · cases mc.forceMiss with
    | true =>
      obtain ⟨n, hn, -⟩ := h'.tree.root_live
      exact ⟨n, hn⟩
    | false => exact hlast

theorem aligned_dummy_le (r : WaitingReq) :
    (alignedKey simulatedConfig r.key).len ≤
      (List.replicate (r.originInputIds ++ r.outputIds).length 0).length := by
  have hlen : r.key.len = (r.originInputIds ++ r.outputIds).length := rfl
  rw [length_replicate, alignedKey, RadixKey.len_pageAligned, ← hlen]
  exact pageFloor_le _ _

/-- In-batch caching changes its own tree only, and never raises. -/
theorem checkInBatch_spec (mc : MatchConfig) (times : MatchTimes) (st : MatchPass)
    (h : RunInv simulatedConfig ⟨st.waitingQueueRadixTree, []⟩) (r : WaitingReq) :
    ∃ st', checkInBatch mc times st r = some st' ∧ st'.treeCache = st.treeCache ∧
      RunInv simulatedConfig ⟨st'.waitingQueueRadixTree, []⟩ := by
  unfold checkInBatch
  by_cases hcheck : (r.prefixIndices.length : Int) ≤ mc.checkThreshold
  · rw [if_pos hcheck]
    obtain ⟨tree, result, heq, -, h', -⟩ := matchOrMiss_spec mc times.queueMatch h r.key
    rw [heq, bind_eq_bind, bind_some]
    dsimp only
    by_cases hlong : mc.deprioritizeThreshold ≤ (result.deviceIndices.length : Int)
    · rw [if_pos hlong]
      exact ⟨_, rfl, rfl, h'⟩
    · rw [if_neg hlong]
      obtain ⟨tree', res, hins, hspec⟩ :=
        insert_spec times.queueInsert 0 false h'.tree rfl (aligned_dummy_le r)
      have hsome : ∃ inserted, res = some inserted := by
        cases hspec with
        | found _ _ _ => exact ⟨_, rfl⟩
        | added _ _ _ _ _ _ _ hev =>
          cases hev
          exact ⟨_, rfl⟩
      obtain ⟨inserted, rfl⟩ := hsome
      rw [hins]
      exact ⟨_, rfl, rfl, h'.inserted rfl hspec⟩
  · rw [if_neg hcheck]
    exact ⟨st, rfl, rfl, h⟩

def SameRequest (r r' : WaitingReq) : Prop :=
  r'.rid = r.rid ∧ r'.originInputIds = r.originInputIds ∧ r'.outputIds = r.outputIds ∧
    r'.extraKey = r.extraKey

theorem matchReq_spec (mc : MatchConfig) (times : MatchTimes) {st : MatchPass}
    (h : RunInv cfg ⟨st.treeCache, locks⟩)
    (hqueue : RunInv simulatedConfig ⟨st.waitingQueueRadixTree, []⟩)
    (r : WaitingReq) :
    ∃ st' r', matchReq cfg mc times st r = some (st', r') ∧ Reshape cfg st.treeCache st'.treeCache ∧
      RunInv cfg ⟨st'.treeCache, locks⟩ ∧ RunInv simulatedConfig ⟨st'.waitingQueueRadixTree, []⟩ ∧
      SameRequest r r' ∧ ∃ n, st'.treeCache.view.core r'.lastNode = some n := by
  obtain ⟨tree, result, heq, hre, h', hlast⟩ := matchOrMiss_spec mc times.treeMatch h r.key
  obtain ⟨st', hcheck, htree, hqueue'⟩ :=
    checkInBatch_spec mc times { st with treeCache := tree } hqueue
    { r with prefixIndices := result.deviceIndices, lastNode := result.lastDeviceNode }
  refine ⟨st', { r with prefixIndices := result.deviceIndices, lastNode := result.lastDeviceNode },
    ?_, ?_, ?_, hqueue', ⟨rfl, rfl, rfl, rfl⟩, ?_⟩
  · unfold matchReq matchPrefixForReq
    rw [heq]
    simp only [bind_eq_bind, bind_some]
    rw [hcheck, bind_some]
  · rw [htree]
    exact hre
  · rw [htree]
    exact h'
  · rw [htree]
    exact hlast

/-- Over the loop, the nodes that requests recorded stay in the tree. -/
theorem matchAll_spec (mc : MatchConfig) (clock : Nat → MatchTimes) {queue : List WaitingReq} :
    ∀ (i : Nat) (st : MatchPass), RunInv cfg ⟨st.treeCache, locks⟩ →
      RunInv simulatedConfig ⟨st.waitingQueueRadixTree, []⟩ →
      ∃ st' queue', matchAll cfg mc clock i st queue = some (st', queue') ∧
        Reshape cfg st.treeCache st'.treeCache ∧ RunInv cfg ⟨st'.treeCache, locks⟩ ∧
        List.Forall₂ SameRequest queue queue' ∧
        ∀ r ∈ queue', ∃ n, st'.treeCache.view.core r.lastNode = some n := by
  induction queue with
  | nil =>
    intro i st h _
    exact ⟨st, [], rfl, .refl, h, .nil, fun r hr => absurd hr not_mem_nil⟩
  | cons r rest ih =>
    intro i st h hqueue
    obtain ⟨st₁, r', hmatch, hre, h₁, hqueue₁, hsame, n, hn⟩ :=
      matchReq_spec mc (clock i) h hqueue r
    obtain ⟨st', rest', hrest, hre', h', hsames, hlive⟩ := ih (i + 1) st₁ h₁ hqueue₁
    refine ⟨st', r' :: rest', ?_, hre.trans hre', h', .cons hsame hsames, ?_⟩
    · rw [matchAll, hmatch, bind_eq_bind, bind_some]
      dsimp only
      rw [hrest]
      rfl
    · intro q hq
      rcases mem_cons.mp hq with rfl | hq
      · -- later lookups may cut this node, which keeps its identity
        obtain ⟨n', hn', -⟩ := hre'.keeps h₁.tree hn
        exact ⟨n', hn'⟩
      · exact hlive q hq

/-- Over every reachable tree and for every queue, a pass followed by `_sort_by_dfs_weight` leaves a
permutation of the queue in which the requests of each subtree are one block, subtrees of siblings
come by their number of requests, and the requests of a node come after those below it. -/
theorem dfsWeight_arranged (cfg : CacheConfig) (now : Int) (ops : List CacheOp)
    (hvalid : (CacheRun.start cfg now).ValidOps cfg ops) (mc : MatchConfig) (resetTime : Int)
    (clock : Nat → MatchTimes) (waitingQueueRadixTree : RadixCache)
    (waitingQueue : List WaitingReq) :
    ∃ run st queue, (CacheRun.start cfg now).exec cfg ops = some run ∧
      computePrefixMatches cfg mc resetTime clock run.cache waitingQueueRadixTree waitingQueue =
        some (st, queue) ∧
      List.Forall₂ SameRequest waitingQueue queue ∧
      ∀ values : Nat → List Nat, (∀ n, (values n).Perm (childValues st.treeCache n)) →
        ∃ q, sortByDfsWeight st.treeCache values queue = some q ∧ q.Perm queue ∧
          ∀ n nd, st.treeCache.nodes n = some nd →
          ArrangedAt (fun m x => Below st.treeCache m x = true)
            (fun c => queue.countP fun r => Below st.treeCache c r.lastNode) WaitingReq.lastNode n
            (childValues st.treeCache n) q := by
  obtain ⟨run, hexec, h⟩ := (runInv_reset cfg now _).exec hvalid
  obtain ⟨st, queue, hmatch, -, h', hsame, hlive⟩ := matchAll_spec mc clock 0
    { treeCache := run.cache, waitingQueueRadixTree :=
      waitingQueueRadixTree.reset simulatedConfig resetTime } h
      (runInv_reset simulatedConfig resetTime _)
  refine ⟨run, st, queue, hexec, hmatch, hsame, ?_⟩
  intro values hvalues
  obtain ⟨q, hq, hperm, harranged⟩ := sortByDfsWeight_spec h'.tree hvalues hlive
  exact ⟨q, hq, hperm, fun n nd hn => harranged n nd.toNodeCore (core_at hn)⟩

/-- The second request cuts the node that the first one recorded. -/
theorem dfsWeight_arranged_cut :
    ∃ run st queue,
      (CacheRun.start simulatedConfig 0).exec simulatedConfig
        [.insert 1 { tokenIds := [1, 2, 3, 4] } [2, 3, 4, 5] 0 false] = some run ∧
      computePrefixMatches simulatedConfig {} 2 (fun i => ⟨3 * i, 3 * i + 1, 3 * i + 2⟩) run.cache
        (RadixCache.init simulatedConfig 0)
        [⟨"a", [1, 2, 3, 4], [], none, [], 0⟩, ⟨"b", [1, 2, 9], [], none, [], 0⟩] =
        some (st, queue) ∧
      List.Forall₂ SameRequest
        [⟨"a", [1, 2, 3, 4], [], none, [], 0⟩, ⟨"b", [1, 2, 9], [], none, [], 0⟩] queue ∧
      ∀ values : Nat → List Nat, (∀ n, (values n).Perm (childValues st.treeCache n)) →
        ∃ q, sortByDfsWeight st.treeCache values queue = some q ∧ q.Perm queue ∧
          ∀ n nd, st.treeCache.nodes n = some nd →
          ArrangedAt (fun m x => Below st.treeCache m x = true)
            (fun c => queue.countP fun r => Below st.treeCache c r.lastNode) WaitingReq.lastNode n
            (childValues st.treeCache n) q :=
  dfsWeight_arranged simulatedConfig 0 _ (by decide +kernel) {} 2 _ _ _

end Pass

end Sglang.Managers.DfsWeight
