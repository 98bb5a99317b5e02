import Sglang.MemCache.RadixCacheSteps

/-!
# Operations of the Radix Cache

One specification for each public operation, over any state whose tree satisfies `TreeInv`:

- `matchPrefix_spec` and `insert_spec` say where the operation stops and what it hangs there,
- `climbLocks_spec` says that a lock loop visits each node of a path once,
- `evict_rule` and `releaseRadixSession_rule` are invariant rules: whatever survives the deletion
  of one unlocked leaf survives the whole operation.

Each one also states that the operation returns.
-/

namespace Sglang.MemCache

open List Function
open Lib
open Lib.PageTrie (PathUp)

namespace RadixCache

variable {cfg : CacheConfig}

/-! ## Section 1: Quiet changes -/

/-- Nothing but times, priorities, hit counts and session tags changed. -/
structure Quiet (s t : RadixCache) : Prop where
  view : t.view = s.view
  hash : ∀ i, (t.nodes i).map TreeNode.hashValue = (s.nodes i).map TreeNode.hashValue
  events : t.kvEventQueue = s.kvEventQueue

namespace Quiet

theorem refl (s : RadixCache) : Quiet s s := ⟨rfl, fun _ => rfl, rfl⟩

theorem trans {s t u : RadixCache} (h : Quiet s t) (h' : Quiet t u) : Quiet s u :=
  ⟨h'.view.trans h.view, fun i => (h'.hash i).trans (h.hash i), h'.events.trans h.events⟩

theorem modifyNode (s : RadixCache) (i : Nat) {f : TreeNode → TreeNode} (hf : Cosmetic f) :
    Quiet s (s.modifyNode i f) where
  view := view_modifyNode s i hf
  hash := by
    intro j
    by_cases hj : j = i
    · subst hj
      cases h : s.nodes j with
      | none => simp [RadixCache.modifyNode, h]
      | some n => simp [RadixCache.modifyNode, h, (hf n).2]
    · simp [RadixCache.modifyNode, update_of_ne hj]
  events := rfl

end Quiet

/-! ## Section 2: Matching -/

/-- The key `match_prefix` and `insert` work with: the bigram view, rounded to whole pages. -/
def alignedKey (cfg : CacheConfig) (key : RadixKey) : RadixKey :=
  (key.maybeToBigramView cfg.isEagle).pageAligned cfg.pageSize

theorem alignedKey_dvd (key : RadixKey) : cfg.pageSize ∣ (alignedKey cfg key).len := by
  rw [alignedKey, RadixKey.len_pageAligned]
  exact dvd_pageFloor _ _

variable {s : RadixCache} {value : List Nat}

/-- `match_prefix` returns the slots of the node where the lookup stops. -/
theorem matchPrefix_spec (now : Int) (inv : TreeInv cfg.pageSize s.view)
    (hdis : cfg.disable = false) (key : RadixKey) :
    ∃ s' last nl, s.matchPrefix cfg now key = some (s', ⟨s'.view.slots last, last⟩) ∧
      Reshape cfg s s' ∧ Stops cfg.pageSize s'.view (alignedKey cfg key).letters last nl := by
  obtain ⟨rn, hrn, _⟩ := inv.root_live
  -- an empty key stops at the root
  have hempty : (alignedKey cfg key).len = 0 →
      Stops cfg.pageSize s.view (alignedKey cfg key).letters s.rootNode rn := by
    intro hz
    have hnil := (RadixKey.letters_eq_nil_iff _).mpr hz
    have := Stops.of_rest inv hrn (alignedKey_dvd key) (.inl hz)
    rw [inv.trie.word_root, nil_append] at this
    exact this
  have hslots : s.view.slots s.rootNode = [] := inv.slots_root
  unfold matchPrefix
  have hdef : (key.maybeToBigramView cfg.isEagle).pageAligned cfg.pageSize = alignedKey cfg key :=
    rfl
  simp only [hdis, Bool.false_eq_true, false_or, hdef]
  by_cases h₁ : (key.maybeToBigramView cfg.isEagle).len = 0
  · rw [if_pos h₁]
    have hz : (alignedKey cfg key).len = 0 := by
      rw [alignedKey, RadixKey.len_pageAligned, h₁]
      simp [pageFloor]
    exact ⟨s, s.rootNode, rn, by rw [hslots], .refl, hempty hz⟩
  rw [if_neg h₁]
  by_cases h₂ : (alignedKey cfg key).len = 0
  · rw [if_pos h₂]
    exact ⟨s, s.rootNode, rn, by rw [hslots], .refl, hempty h₂⟩
  rw [if_neg h₂]
  have hview : (s.modifyNode s.rootNode (accessNode now)).view = s.view :=
    view_modifyNode _ _ (cosmetic_access now)
  have inv₀ : TreeInv cfg.pageSize (s.modifyNode s.rootNode (accessNode now)).view := by
    rw [hview]
    exact inv
  have hroot : (s.modifyNode s.rootNode (accessNode now)).view.core s.rootNode = some rn := by
    rw [hview]
    exact hrn
  have hnil : [] = (s.modifyNode s.rootNode (accessNode now)).view.slots s.rootNode := by
    rw [hview, hslots]
  obtain ⟨s', last, nl, heq, hre, hstop⟩ := matchLoop_spec cfg now inv₀ hroot
    (alignedKey_dvd key) hnil (Nat.lt_succ_self _)
  rw [hview, show s.rootNode = s.view.rootNode from rfl, inv.trie.word_root,
    nil_append] at hstop
  refine ⟨s', last, nl, ?_, (Reshape.touch _ (cosmetic_access now) .refl).trans hre, hstop⟩
  simp only [matchPrefixHelper]
  rw [heq]
  rfl

theorem matchPrefix_disabled (now : Int) (s : RadixCache) (hdis : cfg.disable = true)
    (key : RadixKey) : s.matchPrefix cfg now key = some (s, ⟨[], s.rootNode⟩) := by
  simp [matchPrefix, hdis]

/-! ## Section 3: Insertion -/

/-- The two ways an insertion of `key` with one slot a unit ends. -/
inductive Inserted (cfg : CacheConfig) (s : RadixCache) (key : RadixKey) (value : List Nat) :
    RadixCache → Option InsertResult → Prop where
  /-- The key was in the tree already. -/
  | found {s' : RadixCache} {node : Nat} {nd : TreeNode} (hre : Reshape cfg s s')
      (hnode : s'.nodes node = some nd) (hword : s'.view.word node = key.letters) :
      Inserted cfg s key value s' (some ⟨key.len, some node⟩)
  /-- The rest of the key, after `d` units, hangs below the node where the lookup stopped. -/
  | added {s₁ s₂ s' : RadixCache} {now priority : Int} {chunked ok : Bool} {node d : Nat}
      {nd : TreeNode} {rest : RadixKey} (hre : Reshape cfg s s₁)
      (hnode : s₁.nodes node = some nd)
      (hang : TreeInv.Hang cfg.pageSize s₁.view node nd.toNodeCore rest (value.drop d))
      (hword : s₁.view.word node ++ rest.letters = key.letters)
      (hlen : rest.len + d = key.len)
      (hadd : s₁.addNode cfg now priority chunked node rest (value.drop d) =
        some (s₂, s₁.counter))
      (hview : s₂.view = s₁.view.addLeaf cfg.pageSize node nd.toNodeCore rest (value.drop d))
      (hev : s₂.recordStoreEvent cfg s₁.counter = (s', ok)) :
      Inserted cfg s key value s' (if ok then some ⟨d, some s₁.counter⟩ else none)

theorem insertHelper_spec (now priority : Int) (chunked : Bool)
    (inv : TreeInv cfg.pageSize s.view) {key : RadixKey} (hdvd : cfg.pageSize ∣ key.len)
    (hval : value.length = key.len) :
    ∃ s' res, s.insertHelper cfg now key value priority chunked = some (s', res) ∧
      Inserted cfg s key value s' res := by
  obtain ⟨rn, hrn, _⟩ := inv.root_live
  unfold insertHelper
  -- touching the root changes no data of the tree
  have hcos : Cosmetic fun n => { accessNode now n with priority := max n.priority priority } :=
    fun _ => ⟨rfl, rfl⟩
  have hview := view_modifyNode s s.rootNode hcos
  have hre : Reshape cfg s (s.modifyNode s.rootNode _) := .touch s.rootNode hcos .refl
  have hroot : (s.modifyNode s.rootNode fun n =>
    { accessNode now n with priority := max n.priority priority }).rootNode = s.rootNode := rfl
  simp only
  generalize (s.modifyNode s.rootNode fun n =>
    { accessNode now n with priority := max n.priority priority }) = s₀ at hview hre hroot ⊢
  rw [← hview] at inv hrn
  have hwroot : s₀.view.word s₀.rootNode = [] := inv.trie.word_root
  by_cases hz : key.len = 0
  · rw [if_pos hz]
    obtain ⟨rnn, hrnn, _⟩ := exists_node hrn
    refine ⟨s₀, _, rfl, ?_⟩
    have hw : s₀.view.word s₀.rootNode = key.letters := by
      rw [hwroot, (RadixKey.letters_eq_nil_iff _).mpr hz]
    have hfound : Inserted cfg s key value s₀ _ := .found hre hrnn hw
    rwa [hz] at hfound
  rw [if_neg hz]
  obtain ⟨s₁, node, nd, rest, d, heq, desc⟩ := insertLoop_spec cfg now priority chunked
    value 0 inv hrn hdvd (Nat.lt_succ_self _)
  have hre₁ := hre.trans desc.reshape
  rw [show s₀.view.rootNode = s₀.rootNode from rfl] at heq desc
  have hword : s₁.view.word node ++ rest.letters = key.letters := by
    rw [desc.word, hwroot, nil_append]
  simp only [heq, Option.bind_eq_bind, Option.bind_some, Nat.zero_add]
  -- what the walk did not consume becomes a leaf
  by_cases hrest : 0 < rest.len
  · rw [if_pos hrest]
    have hang : TreeInv.Hang cfg.pageSize s₁.view node nd.toNodeCore rest (value.drop d) :=
      { node_at := core_at desc.node_at
        pos := hrest
        dvd := desc.dvd
        value_len := by
          have := desc.consumed
          rw [length_drop, hval]
          omega
        free := desc.stop.resolve_left (by omega) }
    obtain ⟨s₂, hs₂, hv₂⟩ := addNode_eq cfg now priority chunked desc.node_at rest (value.drop d)
    rw [hs₂]
    simp only [Option.bind_some]
    cases hev : s₂.recordStoreEvent cfg s₁.counter with
    | mk s' ok =>
      exact ⟨s', _, rfl, .added hre₁ desc.node_at hang hword desc.consumed hs₂ hv₂ hev⟩
  · rw [if_neg hrest]
    have hd : d = key.len := by
      have := desc.consumed
      omega
    have hnil : rest.letters = [] := (RadixKey.letters_eq_nil_iff _).mpr (by omega)
    rw [hnil, append_nil] at hword
    refine ⟨s₁, _, rfl, ?_⟩
    rw [hd]
    exact .found hre₁ desc.node_at hword

/-- The value `insert` stores, one slot a unit. -/
def alignedValue (cfg : CacheConfig) (key : RadixKey) (value : List Nat) : List Nat :=
  (key.bigramValue cfg.isEagle value).take (alignedKey cfg key).len

theorem alignedValue_eq (key : RadixKey) (value : List Nat) :
    alignedValue cfg key value = value.take (alignedKey cfg key).len := by
  unfold alignedValue RadixKey.bigramValue
  split
  · rw [take_take, min_eq_left]
    rw [alignedKey, RadixKey.len_pageAligned]
    exact pageFloor_le _ _
  · rfl

theorem alignedValue_length {key : RadixKey}
    (hval : (alignedKey cfg key).len ≤ value.length) :
    (alignedValue cfg key value).length = (alignedKey cfg key).len := by
  rw [alignedValue_eq, length_take, min_eq_left hval]

theorem insert_spec (now priority : Int) (chunked : Bool)
    (inv : TreeInv cfg.pageSize s.view) (hdis : cfg.disable = false) {key : RadixKey}
    (hval : (alignedKey cfg key).len ≤ value.length) :
    ∃ s' res, s.insert cfg now key value priority chunked = some (s', res) ∧
      Inserted cfg s (alignedKey cfg key) (alignedValue cfg key value) s' res := by
  unfold insert
  rw [if_neg (by simp [hdis])]
  exact insertHelper_spec now priority chunked inv (alignedKey_dvd key) (alignedValue_length hval)

theorem view_recordStoreEvent {s s' : RadixCache} {node : Nat} {ok : Bool}
    (h : s.recordStoreEvent cfg node = (s', ok)) : s'.view = s.view := by
  unfold recordStoreEvent at h
  split at h
  · split at h
    · cases h
      rfl
    · next nd hnd =>
      split at h
      · cases h
        rfl
      · cases h
        simp only [view, setNode]
        congr 1
        rw [core_update]
        exact update_eq_self_iff.mpr (by simp [hnd])
  · cases h
    rfl

theorem view_recordRemoveEvent {s s' : RadixCache} {nd : TreeNode} {ok : Bool}
    (h : s.recordRemoveEvent cfg nd = (s', ok)) : s'.view = s.view := by
  unfold recordRemoveEvent at h
  split at h
  · split at h
    · cases h
      rfl
    · dsimp only at h
      split at h <;> cases h <;> rfl
  · cases h
    rfl

/-! ## Section 4: Locks -/

/-- Every node's lock count has changed by `d`; nothing else about the tree has. -/
structure Relocked (s t : RadixCache) (d : Nat → Int) : Prop where
  core : ∀ i, t.view.core i = (s.view.core i).map fun n => { n with lockRef := n.lockRef + d i }
  counter : t.counter = s.counter
  root : t.rootNode = s.rootNode
  hash : ∀ i, (t.nodes i).map TreeNode.hashValue = (s.nodes i).map TreeNode.hashValue
  events : t.kvEventQueue = s.kvEventQueue

namespace Relocked

variable {s t : RadixCache} {d : Nat → Int}

theorem trie_eq (h : Relocked s t d) : t.view.trie = s.view.trie := by
  funext i
  simp only [TreeView.trie, skeleton, h.core]
  cases s.view.core i <;> rfl

theorem word_eq (h : Relocked s t d) : t.view.word = s.view.word := by
  unfold TreeView.word
  rw [h.trie_eq, show t.view.rootNode = s.view.rootNode from h.root,
    show t.view.counter = s.view.counter from h.counter]

theorem path_eq (h : Relocked s t d) : t.view.path = s.view.path := by
  unfold TreeView.path
  rw [h.trie_eq, show t.view.rootNode = s.view.rootNode from h.root,
    show t.view.counter = s.view.counter from h.counter]

theorem slots_eq (h : Relocked s t d) : t.view.slots = s.view.slots := by
  have hval : valueOf NodeCore.toTreeLinks t.view.core =
      valueOf NodeCore.toTreeLinks s.view.core := by
    funext i
    simp only [valueOf, h.core]
    cases s.view.core i <;> rfl
  unfold TreeView.slots
  rw [h.trie_eq, hval, show t.view.rootNode = s.view.rootNode from h.root,
    show t.view.counter = s.view.counter from h.counter]

end Relocked

/-- What one visit of a lock loop does: change the lock count of the node by `e`. -/
def Visits (visit : RadixCache × Int → Nat → TreeNode → RadixCache × Int) (e : Int) : Prop :=
  ∀ {s : RadixCache} {delta : Int} {node : Nat} {nd : TreeNode}, s.nodes node = some nd →
    0 ≤ nd.lockRef → 0 ≤ nd.lockRef + e →
    (visit (s, delta) node nd).1.view = s.view.relock node nd.toNodeCore (nd.lockRef + e) ∧
      (∀ i, ((visit (s, delta) node nd).1.nodes i).map TreeNode.hashValue =
        (s.nodes i).map TreeNode.hashValue) ∧
      (visit (s, delta) node nd).1.kvEventQueue = s.kvEventQueue

/-- A lock loop returns, visits each node of the path once, and keeps the invariant. -/
theorem climbLocks_spec {visit : RadixCache × Int → Nat → TreeNode → RadixCache × Int} {e : Int}
    (hvisit : Visits visit e) {root n : Nat} {l : List Nat}
    {T : PageTrie.Heap Letter RadixKey.ChildKey} (path : PathUp T root n l) :
    ∀ {s : RadixCache} (delta : Int) {fuel : Nat}, TreeInv cfg.pageSize s.view →
      s.view.trie = T → s.rootNode = root → l.Nodup → l.length < fuel →
      (∀ m ∈ l, ∀ nm, s.view.core m = some nm → 0 ≤ nm.lockRef + e) →
      ∃ s' delta', climbLocks visit fuel (s, delta) n = some (s', delta') ∧
        TreeInv cfg.pageSize s'.view ∧ Relocked s s' (fun m => if m ∈ l then e else 0) := by
  -- the induction is on the path to the root, one node a turn
  induction path with
  | root =>
    intro s delta fuel inv htrie hroot _ hfuel _
    obtain ⟨f, rfl⟩ : ∃ f, fuel = f + 1 := ⟨fuel - 1, by simp at hfuel; omega⟩
    refine ⟨s, delta, by simp [climbLocks, hroot], inv, ?_, rfl, rfl, fun _ => rfl, rfl⟩
    intro i
    cases s.view.core i <;> simp
  | @cons n p c l hn hne hp rest ih =>
    intro s delta fuel inv htrie hroot hnodup hfuel hlocks
    simp only [length_cons] at hfuel
    obtain ⟨f, rfl⟩ : ∃ f, fuel = f + 1 := ⟨fuel - 1, by omega⟩
    rw [← htrie] at hn
    obtain ⟨nc, hnc, rfl⟩ := skeleton_some hn
    obtain ⟨nd, hnd, rfl⟩ := exists_node hnc
    have hroot' : n ≠ s.rootNode := by rw [hroot]; exact hne
    have hpar : nd.parent = some p := hp
    have hlock := hlocks n (mem_cons_self ..) _ hnc
    obtain ⟨hview, hhash, hev⟩ :=
      hvisit hnd (inv.lock_nonneg hnc) hlock
    have hnotin : n ∉ l := (nodup_cons.mp hnodup).1
    simp only [climbLocks, if_neg hroot', hnd, hpar, Option.bind_eq_bind, Option.bind_some]
    cases hv : visit (s, delta) n nd with
    | mk s₁ delta₁ =>
      rw [hv] at hview hhash hev
      dsimp only at hview hhash hev
      have inv₁ : TreeInv cfg.pageSize s₁.view := by
        rw [hview]
        exact inv.relock hnc hroot' hlock
      have hcore₁ : s₁.view.core = update s.view.core n
          (some { nd.toNodeCore with lockRef := nd.lockRef + e }) := by
        rw [hview, TreeInv.relock_core]
      have hroot₁ : s₁.rootNode = s.rootNode := by
        have : s₁.view.rootNode = s.view.rootNode := by rw [hview, TreeInv.relock_rootNode]
        exact this
      have hcounter₁ : s₁.counter = s.counter := by
        have : s₁.view.counter = s.view.counter := by rw [hview, TreeInv.relock_counter]
        exact this
      have hfuel₁ : l.length < f := by omega
      obtain ⟨s', delta', heq, inv', rel⟩ := ih (s := s₁) delta₁ inv₁
        (by rw [hview, TreeInv.trie_relock hnc, htrie]) (hroot₁.trans hroot)
        (nodup_cons.mp hnodup).2 hfuel₁ (by
          intro m hm nm hnm
          have hmn : m ≠ n := by
            rintro rfl
            exact hnotin hm
          rw [hcore₁, update_of_ne hmn] at hnm
          exact hlocks m (mem_cons_of_mem _ hm) nm hnm)
      refine ⟨s', delta', heq, inv', ?_, rel.counter.trans hcounter₁, rel.root.trans hroot₁,
        fun i => (rel.hash i).trans (hhash i), rel.events.trans hev⟩
      intro i
      rw [rel.core i, hcore₁]
      by_cases hin : i = n
      · subst hin
        simp [hnotin, hnc]
      · simp [hin]

private theorem hash_updateLeafStatus (s : RadixCache) (node i : Nat) :
    (s.updateLeafStatus node).nodes i = s.nodes i ∧
      (s.updateLeafStatus node).kvEventQueue = s.kvEventQueue := by
  unfold updateLeafStatus
  split
  · exact ⟨rfl, rfl⟩
  · split
    · exact ⟨rfl, rfl⟩
    · split
      · exact ⟨rfl, rfl⟩
      · split <;> exact ⟨rfl, rfl⟩

theorem nodes_updateLeafStatus (s : RadixCache) (node : Nat) :
    (s.updateLeafStatus node).nodes = s.nodes :=
  funext fun i => (hash_updateLeafStatus s node i).1

theorem events_updateLeafStatus (s : RadixCache) (node : Nat) :
    (s.updateLeafStatus node).kvEventQueue = s.kvEventQueue :=
  (hash_updateLeafStatus s node 0).2

theorem visits_inc : Visits incLockNode 1 := by
  intro s delta node nd hnd hlock _
  refine ⟨incLockNode_view hlock, ?_, ?_⟩
  · intro i
    unfold incLockNode
    dsimp only
    rw [nodes_updateLeafStatus]
    by_cases hi : i = node
    · subst hi
      split <;> simp [setNode, hnd]
    · split <;> simp [setNode, update_of_ne hi]
  · unfold incLockNode
    dsimp only
    rw [events_updateLeafStatus]
    split <;> rfl

theorem visits_dec : Visits decLockNode (-1) := by
  intro s delta node nd hnd _ hlock
  refine ⟨decLockNode_view (by omega), ?_, ?_⟩
  · intro i
    unfold decLockNode
    dsimp only
    rw [nodes_updateLeafStatus]
    by_cases hi : i = node
    · subst hi
      split <;> simp [setNode, hnd]
    · split <;> simp [setNode, update_of_ne hi]
  · unfold decLockNode
    dsimp only
    rw [events_updateLeafStatus]
    split <;> rfl

section

variable {n : Nat} {nc : NodeCore} (inv : TreeInv cfg.pageSize s.view) (hdis : cfg.disable = false)
  (hn : s.view.core n = some nc)
include inv hdis hn

theorem incLockRef_spec :
    ∃ s' delta, s.incLockRef cfg n = some (s', delta) ∧ TreeInv cfg.pageSize s'.view ∧
      Relocked s s' (fun m => if m ∈ s.view.path n then 1 else 0) := by
  have path := inv.path_up hn
  have hlen := inv.trie.path_length_le path inv.bound
  unfold incLockRef
  rw [if_neg (by simp [hdis])]
  refine climbLocks_spec visits_inc path _ inv rfl rfl (inv.trie.path_nodup path)
    (Nat.lt_succ_of_le hlen) ?_
  intro m _ nm hnm
  have := inv.lock_nonneg hnm
  omega

theorem decLockRef_spec
    (hlocked : ∀ m ∈ s.view.path n, ∀ nm, s.view.core m = some nm → 1 ≤ nm.lockRef) :
    ∃ s' delta, s.decLockRef cfg n = some (s', delta) ∧ TreeInv cfg.pageSize s'.view ∧
      Relocked s s' (fun m => if m ∈ s.view.path n then -1 else 0) := by
  have path := inv.path_up hn
  have hlen := inv.trie.path_length_le path inv.bound
  unfold decLockRef
  rw [if_neg (by simp [hdis])]
  refine climbLocks_spec visits_dec path _ inv rfl rfl (inv.trie.path_nodup path)
    (Nat.lt_succ_of_le hlen) ?_
  intro m hm nm hnm
  have := hlocked m hm nm hnm
  omega

end

/-! ## Section 5: Eviction -/

def liveCount (v : TreeView) : Nat :=
  nodeSum (fun o : Option NodeCore => if o.isSome then 1 else 0) v.core v.counter

theorem liveCount_le (v : TreeView) : liveCount v ≤ v.counter := by
  unfold liveCount nodeSum
  calc ∑ i ∈ Finset.range v.counter, (if (v.core i).isSome then 1 else 0)
      ≤ ∑ _i ∈ Finset.range v.counter, 1 := Finset.sum_le_sum fun i _ => by split <;> omega
    _ = v.counter := by simp

theorem liveCount_removeLeaf {ps : Nat} {v : TreeView} (inv : TreeInv ps v) {x p : Nat}
    {xn pn : NodeCore} (prune : TreeInv.Prune v x xn p pn) :
    liveCount (v.removeLeaf ps x xn p pn) + 1 = liveCount v := by
  unfold liveCount
  rw [TreeInv.removeLeaf_counter]
  exact inv.nodeSum_removeLeaf (f := fun o => if o.isSome then 1 else 0) prune rfl rfl

theorem exists_prune (inv : TreeInv cfg.pageSize s.view) {x : Nat}
    (hx : s.view.Evictable x) :
    ∃ xn p pn, s.nodes x = some xn ∧ s.nodes p = some pn ∧
      TreeInv.Prune s.view x xn.toNodeCore p pn.toNodeCore := by
  obtain ⟨c, hc, hlock, hempty⟩ := hx
  obtain ⟨p, pc, hp, hpc⟩ := inv.exists_parent hc (inv.ne_root_of_unlocked hc hlock)
  obtain ⟨xn, hxn, rfl⟩ := exists_node hc
  obtain ⟨pn, hpn, rfl⟩ := exists_node hpc
  exact ⟨xn, p, pn, hxn, hpn, hc, hp, hpc, hlock, hempty⟩

theorem deleteLeaf_spec (inv : TreeInv cfg.pageSize s.view) {x p : Nat}
    {xn pn : TreeNode} (hx : s.nodes x = some xn) (hp : s.nodes p = some pn)
    (prune : TreeInv.Prune s.view x xn.toNodeCore p pn.toNodeCore) :
    ∃ s', s.deleteLeaf cfg x = some s' ∧
      s'.view = s.view.removeLeaf cfg.pageSize x xn.toNodeCore p pn.toNodeCore :=
  deleteLeaf_eq cfg hx prune.parent_eq hp
    (inv.lookup_childKey prune.node_at prune.parent_eq prune.parent_at)

/-- What `evict` keeps on its heap: the nodes that may be taken, each once. -/
structure HeapOk (v : TreeView) (heap : List Nat) : Prop where
  nodup : heap.Nodup
  evictable : ∀ x, x ∈ heap ↔ v.Evictable x

/-- Taking one entry from the heap, and pushing the parent when it has become a leaf. -/
theorem HeapOk.pop {ps : Nat} {v : TreeView} (inv : TreeInv ps v) {heap : List Nat}
    (ok : HeapOk v heap) {i x p : Nat} {xn pn pn' : NodeCore} (hi : heap[i]? = some x)
    (prune : TreeInv.Prune v x xn p pn)
    (hpn' : (v.removeLeaf ps x xn p pn).core p = some pn') :
    HeapOk (v.removeLeaf ps x xn p pn)
      (if pn'.children.entries = [] ∧ pn'.lockRef = 0 then p :: heap.eraseIdx i
        else heap.eraseIdx i) := by
  obtain ⟨hlt, hget⟩ := List.getElem?_eq_some_iff.mp hi
  -- the parent has a child, so it is not in the heap yet
  have hpheap : p ∉ heap := by
    intro hmem
    obtain ⟨n, hn, _, hempty⟩ := (ok.evictable p).mp hmem
    rw [prune.parent_at] at hn
    cases hn
    have := inv.lookup_childKey prune.node_at prune.parent_eq prune.parent_at
    rw [(entries_eq_nil_iff _).mp hempty] at this
    cases this
  have hrest : ∀ y, y ∈ heap.eraseIdx i ↔ y ∈ heap ∧ y ≠ x := by
    intro y
    rw [mem_eraseIdx_iff_getElem]
    constructor
    · rintro ⟨j, hj, hji, rfl⟩
      refine ⟨getElem_mem _, ?_⟩
      intro heq
      rw [← hget] at heq
      exact hji ((ok.nodup.getElem_inj_iff).mp heq)
    · rintro ⟨hmem, hyx⟩
      obtain ⟨j, hj, rfl⟩ := getElem_of_mem hmem
      refine ⟨j, hj, ?_, rfl⟩
      rintro rfl
      exact hyx hget
  -- away from the leaf and its parent nothing changes
  have hsame : ∀ y, y ≠ p → ((v.removeLeaf ps x xn p pn).Evictable y ↔ y ∈ heap.eraseIdx i) := by
    intro y hyp
    rw [hrest]
    by_cases hyx : y = x
    · refine iff_of_false ?_ fun h => h.2 hyx
      rintro ⟨n, hn, -, -⟩
      exact (TreeInv.removeLeaf_cases hn).1 hyx
    · rw [TreeView.evictable_congr (v := v)
        (by rw [TreeInv.removeLeaf_core, update_of_ne hyx, update_of_ne hyp]),
        ← ok.evictable y]
      exact ⟨fun h => ⟨h, hyx⟩, And.left⟩
  have hpar : (v.removeLeaf ps x xn p pn).Evictable p ↔
      pn'.children.entries = [] ∧ pn'.lockRef = 0 := by
    constructor
    · rintro ⟨n, hn, hlock, hempty⟩
      rw [hpn'] at hn
      cases hn
      exact ⟨hempty, hlock⟩
    · exact fun h => ⟨pn', hpn', h.2, h.1⟩
  have hperase : p ∉ heap.eraseIdx i := fun hmem => hpheap ((hrest p).mp hmem).1
  have hnodup : (heap.eraseIdx i).Nodup := ok.nodup.sublist (eraseIdx_sublist _ _)
  split
  · next h =>
    refine ⟨nodup_cons.mpr ⟨hperase, hnodup⟩, ?_⟩
    intro y
    rw [mem_cons]
    by_cases hyp : y = p
    · rw [hyp]
      exact iff_of_true (.inl rfl) (hpar.mpr h)
    · rw [hsame y hyp]
      exact or_iff_right hyp
  · next h =>
    refine ⟨hnodup, ?_⟩
    intro y
    by_cases hyp : y = p
    · rw [hyp]
      exact iff_of_false hperase fun hev => h (hpar.mp hev)
    · exact (hsame y hyp).symm

/-- How the loop of `evict` ends: enough is freed, or nothing is left to take, or the event of the
last deletion raised. -/
inductive EvictExit (cfg : CacheConfig) (numTokens : Nat) (P : RadixCache → EvictResult → Prop)
    (s' : RadixCache) (acc' : EvictResult) : Option EvictResult → Prop where
  | enough (h : numTokens ≤ acc'.numTokensEvicted) : EvictExit cfg numTokens P s' acc' (some acc')
  | drained (h : ∀ x, ¬s'.view.Evictable x) : EvictExit cfg numTokens P s' acc' (some acc')
  | raised {s s₁ : RadixCache} {acc : EvictResult} {x : Nat} {xn : TreeNode} (hP : P s acc)
      (hx : s.nodes x = some xn) (h : s₁.recordRemoveEvent cfg xn = (s', false)) :
      EvictExit cfg numTokens P s' acc' none

/-- Invariant rule for the loop of `evict`: a property that survives the deletion of one unlocked
leaf, and the event that follows, holds when the loop returns; and the loop returns. -/
theorem evictLoop_rule (order : EvictionOrder) (numTokens : Nat)
    {P : RadixCache → EvictResult → Prop}
    (hstep : ∀ {s s₁ s₂ : RadixCache} {acc : EvictResult} {x p : Nat} {xn pn : TreeNode}
      {ok : Bool}, acc.numTokensEvicted < numTokens →
      P s acc → TreeInv cfg.pageSize s.view → s.nodes x = some xn → s.nodes p = some pn →
      TreeInv.Prune s.view x xn.toNodeCore p pn.toNodeCore → s.deleteLeaf cfg x = some s₁ →
      s₁.view = s.view.removeLeaf cfg.pageSize x xn.toNodeCore p pn.toNodeCore →
      s₁.recordRemoveEvent cfg xn = (s₂, ok) →
      P s₂ ⟨acc.numTokensEvicted + xn.value.length, acc.freed ++ [xn.value]⟩) :
    ∀ {fuel : Nat} {s : RadixCache} {heap : List Nat} {acc : EvictResult},
      P s acc → TreeInv cfg.pageSize s.view → HeapOk s.view heap → liveCount s.view < fuel →
      ∃ s' res acc', evictLoop cfg order numTokens fuel s heap acc = some (s', res) ∧ P s' acc' ∧
        TreeInv cfg.pageSize s'.view ∧ EvictExit cfg numTokens P s' acc' res := by
  intro fuel
  -- every turn deletes a live leaf, so the fuel suffices
  induction fuel with
  | zero =>
    intro s heap acc _ _ _ hfuel
    omega
  | succ fuel ih =>
    intro s heap acc hP inv ok hfuel
    unfold evictLoop
    by_cases hcond : acc.numTokensEvicted < numTokens ∧ heap ≠ []
    · rw [if_pos hcond]
      have hpos : 0 < heap.length := length_pos_of_ne_nil hcond.2
      obtain ⟨x, hi⟩ : ∃ x, heap[order s heap % heap.length]? = some x :=
        ⟨_, getElem?_eq_getElem (Nat.mod_lt _ hpos)⟩
      generalize order s heap % heap.length = i at hi ⊢
      have hmem : x ∈ heap := mem_of_getElem? hi
      obtain ⟨xn, p, pn, hxn, hpn, prune⟩ := exists_prune inv ((ok.evictable x).mp hmem)
      obtain ⟨s₁, hs₁, hview₁⟩ := deleteLeaf_spec inv hxn hpn prune
      have inv₁ : TreeInv cfg.pageSize s₁.view := by
        rw [hview₁]
        exact inv.removeLeaf prune
      obtain ⟨pc', hpc', _⟩ := TreeInv.removeLeaf_live prune
        (inv.prune_ne prune) prune.parent_at
      have hcore₁ : s₁.view.core p = some pc' := by rw [hview₁]; exact hpc'
      obtain ⟨pn', hpn', rfl⟩ := exists_node hcore₁
      simp only [hi, hxn, hs₁, prune.parent_eq, hpn', Option.bind_eq_bind, Option.bind_some]
      cases hev : s₁.recordRemoveEvent cfg xn with
      | mk s₂ good =>
        have hview₂ := view_recordRemoveEvent hev
        have hP₂ := hstep hcond.1 hP inv hxn hpn prune hs₁ hview₁ hev
        have inv₂ : TreeInv cfg.pageSize s₂.view := by rw [hview₂]; exact inv₁
        cases good with
        | true =>
          refine ih hP₂ inv₂ ?_ ?_
          · rw [hview₂, hview₁]
            exact ok.pop inv hi prune hpc'
          · have := liveCount_removeLeaf inv prune
            rw [hview₂, hview₁]
            omega
        -- a removal event without hashes raises
        | false => exact ⟨s₂, none, _, rfl, hP₂, inv₂, .raised hP hxn hev⟩
    · rw [if_neg hcond]
      refine ⟨s, some acc, acc, rfl, hP, inv, ?_⟩
      by_cases hnum : acc.numTokensEvicted < numTokens
      · have hnil : heap = [] := Classical.not_not.mp fun hne => hcond ⟨hnum, hne⟩
        apply EvictExit.drained
        intro x hx
        have hmem := (ok.evictable x).mpr hx
        rw [hnil] at hmem
        cases hmem
      · exact .enough (by omega)

theorem heapOk_leaves (inv : TreeInv cfg.pageSize s.view) :
    HeapOk s.view s.evictableLeaves := ⟨inv.leaves_nodup, inv.leaf_ok⟩

theorem evict_rule (cfg : CacheConfig) (order : EvictionOrder) (numTokens : Nat)
    (P : RadixCache → EvictResult → Prop)
    (hstep : ∀ {s s₁ s₂ : RadixCache} {acc : EvictResult} {x p : Nat} {xn pn : TreeNode}
      {ok : Bool}, P s acc → TreeInv cfg.pageSize s.view → s.nodes x = some xn →
      s.nodes p = some pn →
      TreeInv.Prune s.view x xn.toNodeCore p pn.toNodeCore → s.deleteLeaf cfg x = some s₁ →
      s₁.view = s.view.removeLeaf cfg.pageSize x xn.toNodeCore p pn.toNodeCore →
      s₁.recordRemoveEvent cfg xn = (s₂, ok) →
      P s₂ ⟨acc.numTokensEvicted + xn.value.length, acc.freed ++ [xn.value]⟩) (hP : P s ⟨0, []⟩)
      (inv : TreeInv cfg.pageSize s.view) :
    ∃ s' res acc', s.evict cfg order numTokens = some (s', res) ∧ P s' acc' ∧
      TreeInv cfg.pageSize s'.view ∧
      (res = some acc' ∨ (res = none ∧ cfg.enableKvCacheEvents = true)) := by
  unfold evict
  split
  · exact ⟨s, some ⟨0, []⟩, ⟨0, []⟩, rfl, hP, inv, .inl rfl⟩
  · obtain ⟨s', res, acc', heq, hP', inv', hexit⟩ := evictLoop_rule order numTokens
      (fun _ => hstep) hP inv (heapOk_leaves inv)
      (Nat.lt_succ_of_le (liveCount_le s.view))
    refine ⟨s', res, acc', heq, hP', inv', ?_⟩
    cases hexit with
    | enough _ => exact .inl rfl
    | drained _ => exact .inl rfl
    | raised _ _ hev =>
      refine .inr ⟨rfl, ?_⟩
      by_contra hoff
      simp [recordRemoveEvent, hoff] at hev

/-! ## Section 6: Sessions -/

theorem cosmetic_untag (sid : String) : Cosmetic (untagNode sid) := fun _ => ⟨rfl, rfl⟩

/-- Invariant rule for the inner loop of `release_radix_session`. -/
theorem releaseLoop_rule {sid : String} {P : RadixCache → List (List Nat) → Prop}
    (hquiet : ∀ {s t : RadixCache} {freed : List (List Nat)}, Quiet s t → P s freed → P t freed)
    (hstep : ∀ {s s₁ : RadixCache} {freed : List (List Nat)} {x p : Nat} {xn pn : TreeNode},
      P s freed → TreeInv cfg.pageSize s.view → s.nodes x = some xn → s.nodes p = some pn →
      TreeInv.Prune s.view x xn.toNodeCore p pn.toNodeCore → s.deleteLeaf cfg x = some s₁ →
      s₁.view = s.view.removeLeaf cfg.pageSize x xn.toNodeCore p pn.toNodeCore →
      xn.sessionIds = [] → P s₁ (freed ++ [xn.value])) :
    ∀ {fuel : Nat} {s : RadixCache} {node : Nat} {nc : NodeCore} {freed : List (List Nat)},
      P s freed → TreeInv cfg.pageSize s.view → s.view.core node = some nc →
      liveCount s.view < fuel →
      ∃ s' freed', releaseLoop cfg sid fuel s node freed = some (s', freed') ∧ P s' freed' ∧
        TreeInv cfg.pageSize s'.view := by
  intro fuel
  induction fuel with
  | zero =>
    intro s node nc freed _ _ _ hfuel
    omega
  | succ fuel ih =>
    intro s node nc freed hP inv hnode hfuel
    have hq := Quiet.modifyNode s node (cosmetic_untag sid)
    obtain ⟨n₀, hn₀, rfl⟩ := exists_node hnode
    have hn₁ := nodes_modifyNode hn₀ (untagNode sid)
    unfold releaseLoop
    simp only [hn₁, Option.bind_eq_bind, Option.bind_some]
    generalize s.modifyNode node (untagNode sid) = s₁ at hq hn₁ ⊢
    have inv₁ : TreeInv cfg.pageSize s₁.view := by rw [hq.view]; exact inv
    split
    · exact ⟨s₁, freed, rfl, hquiet hq hP, inv₁⟩
    · next hcond =>
      simp only [not_or, not_not] at hcond
      obtain ⟨hroot, hlock, hempty, hleaf, hsess⟩ := hcond
      obtain ⟨xn, p, pn, hxn, hpn, prune⟩ := exists_prune inv₁ ((inv₁.leaf_ok node).mp hleaf)
      rw [hn₁] at hxn
      cases hxn
      obtain ⟨s₂, hs₂, hview₂⟩ := deleteLeaf_spec inv₁ hn₁ hpn prune
      have hpar : (untagNode sid n₀).parent = some p := prune.parent_eq
      simp only [hpar, hs₂, Option.bind_some]
      obtain ⟨pc', hpc', _⟩ := TreeInv.removeLeaf_live prune
        (inv₁.prune_ne prune) prune.parent_at
      have hP₂ := hstep (hquiet hq hP) inv₁ hn₁ hpn prune hs₂ hview₂ hsess
      have inv₂ : TreeInv cfg.pageSize s₂.view := by
        rw [hview₂]
        exact inv₁.removeLeaf prune
      rw [← hview₂] at hpc'
      refine ih hP₂ inv₂ hpc' ?_
      have := liveCount_removeLeaf inv₁ prune
      rw [hview₂]
      rw [hq.view] at this ⊢
      omega

theorem quiet_sessions (s : RadixCache) (leaves : AList fun _ : String => List Nat)
    (closed : List String) :
    Quiet s { s with sessionLeaves := leaves, closedSessionIds := closed } :=
  ⟨rfl, fun _ => rfl, rfl⟩

theorem quiet_rememberClosedSession (s : RadixCache) (sid : String) :
    Quiet s (s.rememberClosedSession sid) := by
  unfold rememberClosedSession
  exact quiet_sessions s s.sessionLeaves _

/-- Invariant rule for `release_radix_session`, which always returns. -/
theorem releaseRadixSession_rule (cfg : CacheConfig) (sid : String) (iter : List Nat → List Nat)
    (P : RadixCache → List (List Nat) → Prop)
    (hquiet : ∀ {s t : RadixCache} {freed : List (List Nat)}, Quiet s t → P s freed → P t freed)
    (hstep : ∀ {s s₁ : RadixCache} {freed : List (List Nat)} {x p : Nat} {xn pn : TreeNode},
      P s freed → TreeInv cfg.pageSize s.view → s.nodes x = some xn → s.nodes p = some pn →
      TreeInv.Prune s.view x xn.toNodeCore p pn.toNodeCore → s.deleteLeaf cfg x = some s₁ →
      s₁.view = s.view.removeLeaf cfg.pageSize x xn.toNodeCore p pn.toNodeCore →
      xn.sessionIds =
        [] → P s₁ (freed ++ [xn.value])) (hP : P s []) (inv : TreeInv cfg.pageSize s.view) :
    ∃ s' freed, s.releaseRadixSession cfg iter sid = some (s', freed) ∧ P s' freed ∧
      TreeInv cfg.pageSize s'.view := by
  have hleaves : ∀ (leaves : List Nat) {s : RadixCache} {freed : List (List Nat)}, P s freed →
      TreeInv cfg.pageSize s.view →
      ∃ s' freed', releaseLeaves cfg sid leaves s freed = some (s', freed') ∧ P s' freed' ∧
        TreeInv cfg.pageSize s'.view := by
    intro leaves
    induction leaves with
    | nil =>
      intro s freed hP inv
      exact ⟨s, freed, rfl, hP, inv⟩
    | cons leaf leaves ih =>
      intro s freed hP inv
      unfold releaseLeaves
      cases hl : s.nodes leaf with
      | none => exact ih hP inv
      | some nd =>
        dsimp only
        split
        · exact ih hP inv
        · have hfuel : liveCount s.view < s.counter + 1 := Nat.lt_succ_of_le (liveCount_le s.view)
          obtain ⟨s₁, freed₁, heq, hP₁, inv₁⟩ := releaseLoop_rule (P := P) hquiet hstep hP inv
            (core_at hl) hfuel
          rw [heq]
          exact ih hP₁ inv₁
  have hq := quiet_rememberClosedSession s sid
  unfold releaseRadixSession
  dsimp only
  generalize s.rememberClosedSession sid = t at hq ⊢
  have hq' := quiet_sessions t (t.sessionLeaves.erase sid) t.closedSessionIds
  exact hleaves _ (hquiet (hq.trans hq') hP) (by rw [(hq.trans hq').view]; exact inv)

theorem quiet_tagNode (s : RadixCache) (sid : String) (node : Nat) :
    Quiet s (s.tagNode sid node) := by
  unfold tagNode
  split
  · exact .refl s
  · have hcos : Cosmetic fun n => { n with
        sessionIds := if sid ∈ n.sessionIds then n.sessionIds else sid :: n.sessionIds } :=
      fun _ => ⟨rfl, rfl⟩
    dsimp only
    exact (quiet_sessions s _ s.closedSessionIds).trans (Quiet.modifyNode _ node hcos)

theorem tagSessionLeaf_spec (now : Int) (inv : TreeInv cfg.pageSize s.view)
    (sid : Option String) (key : RadixKey) (node : Option Nat) :
    ∃ s' t, s.tagSessionLeaf cfg now sid key node = some s' ∧ Reshape cfg s t ∧ Quiet t s' ∧
      (cfg.disable = true → t = s) := by
  unfold tagSessionLeaf
  split
  · next sid _ =>
    split
    · exact ⟨s, s, rfl, .refl, .refl s, fun _ => rfl⟩
    · cases node with
      | some n => exact ⟨_, s, rfl, .refl, quiet_tagNode s sid n, fun _ => rfl⟩
      | none =>
        cases hdis : cfg.disable with
        | true =>
          rw [matchPrefix_disabled now s hdis key]
          exact ⟨_, s, rfl, .refl, quiet_tagNode s sid _, fun _ => rfl⟩
        | false =>
          obtain ⟨t, last, nl, heq, hre, _⟩ := matchPrefix_spec now inv hdis key
          rw [heq]
          exact ⟨_, t, rfl, hre, quiet_tagNode t sid last, by simp⟩
  · exact ⟨s, s, rfl, .refl, .refl s, fun _ => rfl⟩

end RadixCache

end Sglang.MemCache
