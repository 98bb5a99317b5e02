import Sglang.Router.HashTreeInvariant

/-!
# Runs of the Hash Tree

Every operation of the hash tree keeps the invariant, in whatever order it visits its maps, so every
state that a run reaches has it.

- `Inv.insert`, `Core.removeTarget`, `Core.clearWorker`, `Inv.matchPrefix`, `Inv.evictLru`,
- `hash_tree_invariant`: the representation invariant of every reachable state, and what `evict_lru`
  promises there.
-/

namespace Sglang.Router

open List Option
open Lib

namespace TreeState

def Inv (s : TreeState) : Prop := ∃ word, Core s word ∧ s.Held []

/-! ## Section 1: Insertion -/

theorem Inv.touch {s : TreeState} (h : s.Inv) {i : NodeId} {m n : Node}
    (hi : s.nodes.lookup i = some m) (hcell : n.cell = m.cell) (hhash : n.blockHash = m.blockHash)
    (hworkers : n.workers = ∅ → m.workers = ∅) : (s.setNode i n).Inv := by
  obtain ⟨word, hcore, hheld⟩ := h
  have hparent : n.parent = m.parent := congrArg PageTrie.Cell.parent hcell
  have hchild : ∀ x, n.children.lookup x = m.children.lookup x := fun x =>
    congrFun (congrArg PageTrie.Cell.child hcell) x
  refine ⟨word, hcore.touch hi hcell hhash, ?_⟩
  intro j nj p hj hp hprune
  by_cases hji : j = i
  · subst hji
    rw [lookup_setNode_self] at hj
    cases hj
    refine hheld hi (hparent ▸ hp) ⟨hworkers hprune.1, children_empty_iff.mpr fun x => ?_⟩
    rw [← hchild]
    exact children_empty_iff.mp hprune.2 x
  · rw [lookup_setNode_ne s n hji] at hj
    exact hheld hj hp hprune

theorem Inv.insertLoop {now : Nat} {worker : KvWorkerId} {hs : List Int64} :
    ∀ {s : TreeState} {current : NodeId} {prevHash : Option Int64}, s.Inv → current ∈ s.nodes →
      (insertLoop now worker s current prevHash hs).Inv := by
  induction hs with
  | nil => exact fun h _ => h
  | cons bh hs ih =>
    intro s current prevHash h hcur
    obtain ⟨word, hcore, hheld⟩ := h
    obtain ⟨cn, hcn⟩ := Finmap.mem_iff.mp hcur
    cases hfound : cn.children.lookup bh with
    | some id =>
      obtain ⟨n, hn, _, _⟩ := hcore.child hcn hfound
      simp only [TreeState.insertLoop, hcn, bind_some, hfound, hn]
      apply ih
      · exact Inv.touch ⟨word, hcore, hheld⟩ hn rfl rfl fun he => absurd he (by simp)
      · simp [setNode]
    | none =>
      obtain ⟨t, heq, _⟩ := createChild_eq hcore now hcn bh prevHash
      obtain ⟨ht, hnew, _⟩ := hcore.createChild hcn hfound heq
      have hheld' := hheld.createChild hcore hcn hfound heq
      simp only [TreeState.insertLoop, hcn, bind_some, hfound, heq, hnew]
      apply ih
      · refine ⟨_, ht.touch hnew rfl rfl, hheld'.touch (fun hp => ?_) ?_⟩
        · exact absurd hp.1 (by simp)
        · intro j hj hne
          exact absurd (mem_singleton.mp hj) hne
      · simp [setNode]

theorem resolveParent_mem {s : TreeState} (h : s.Inv) (order : HashOrder) (worker : KvWorkerId)
    (parentHash : Option Int64) : s.resolveParent order worker parentHash ∈ s.nodes := by
  obtain ⟨word, hcore, _⟩ := h
  obtain ⟨rn, hrn, _⟩ := hcore.root
  have hroot : rootId ∈ s.nodes := Finmap.mem_of_lookup_eq_some hrn
  cases parentHash with
  | none => exact hroot
  | some bh =>
    cases hids : s.byHash.lookup bh with
    | none =>
      simp only [resolveParent, hids]
      exact hroot
    | some ids =>
      have hlisted : ∀ i ∈ order.list ids, i ∈ s.nodes := by
        intro i hi
        obtain ⟨n, _, hn, _⟩ := (hcore.by_hash bh i).mp ⟨ids, hids, (order.mem ids i).mp hi⟩
        exact Finmap.mem_of_lookup_eq_some hn
      simp only [resolveParent, hids]
      split
      · cases hl : order.list ids with
        | nil => exact hroot
        | cons i is => exact hlisted i (by rw [hl]; exact mem_cons_self ..)
      · cases hf : (order.list ids).find? _ with
        | none => exact hroot
        | some i => exact hlisted i (mem_of_find?_eq_some hf)

theorem Inv.insert {s : TreeState} (h : s.Inv) (order : HashOrder) (now : Nat)
    (worker : KvWorkerId) (parentHash : Option Int64) (blockHashes : List Int64) :
    (s.insert order now worker parentHash blockHashes).Inv := by
  unfold TreeState.insert
  split
  · exact h
  · exact h.insertLoop (resolveParent_mem h order worker parentHash)

/-! ## Section 2: Removal -/

variable {word : NodeId → List Int64}

theorem Core.removeTarget {s : TreeState} (hcore : Core s word)
    (hheld : s.Held []) (worker : KvWorkerId) (id : NodeId) :
    Core (removeTarget worker s id) word ∧ (removeTarget worker s id).Held [] := by
  unfold TreeState.removeTarget
  split
  · exact ⟨hcore, hheld⟩
  · next n hn =>
    have hcore' := hcore.touch (n := { n with workers := n.workers.erase worker }) hn rfl rfl
    dsimp only
    split
    · have hheld' : (s.setNode id { n with workers := n.workers.erase worker }).Held [id] :=
        hheld.touch (fun _ => mem_singleton_self _) (by simp)
      obtain ⟨ht, hheld'', _⟩ := hcore'.pruneCascade hheld'
      exact ⟨ht, hheld''⟩
    · next hnot => exact ⟨hcore', hheld.touch (fun hp => absurd hp hnot) (by simp)⟩

theorem Core.foldl_removeTarget (worker : KvWorkerId)
    (ids : List NodeId) : ∀ {s : TreeState}, Core s word → s.Held [] →
      Core (ids.foldl (TreeState.removeTarget worker) s) word ∧
        (ids.foldl (TreeState.removeTarget worker) s).Held [] := by
  induction ids with
  | nil => exact fun hcore hheld => ⟨hcore, hheld⟩
  | cons id ids ih =>
    intro s hcore hheld
    obtain ⟨hcore', hheld'⟩ := hcore.removeTarget hheld worker id
    exact ih hcore' hheld'

theorem clearTarget_spec (worker : KvWorkerId) {s : TreeState}
    {candidates : List NodeId} (hcore : Core s word) (hheld : s.Held candidates) {id : NodeId}
    (hid : id ≠ rootId) : Core (clearTarget worker (s, candidates) id).1 word ∧
      (clearTarget worker (s, candidates) id).1.Held
        (clearTarget worker (s, candidates) id).2 := by
  unfold clearTarget
  dsimp only
  split
  · exact ⟨hcore, hheld⟩
  · next n hn =>
    refine ⟨hcore.touch hn rfl rfl, hheld.touch ?_ ?_⟩
    · intro hprune
      by_cases hw : worker ∈ n.workers
      · rw [if_pos ⟨hw, hprune⟩]
        exact mem_append_right _ (mem_singleton_self _)
      · rw [if_neg fun hand => hw hand.1]
        obtain ⟨p, _, hp, _⟩ := hcore.parent hn hid
        refine hheld hn hp ⟨?_, hprune.2⟩
        have hempty : n.workers.erase worker = ∅ := hprune.1
        rwa [Finset.erase_eq_of_notMem hw] at hempty
    · intro j hj _
      split
      · exact mem_append_left _ hj
      · exact hj

theorem foldl_clearTarget_spec (worker : KvWorkerId)
    {ids : List NodeId} (hids : ∀ i ∈ ids, i ≠ rootId) :
    ∀ {acc : TreeState × List NodeId}, Core acc.1 word → acc.1.Held acc.2 →
      Core (ids.foldl (clearTarget worker) acc).1 word ∧
        (ids.foldl (clearTarget worker) acc).1.Held (ids.foldl (clearTarget worker) acc).2 := by
  induction ids with
  | nil => exact fun hcore hheld => ⟨hcore, hheld⟩
  | cons id ids ih =>
    rintro ⟨s, candidates⟩ hcore hheld
    obtain ⟨hcore', hheld'⟩ :=
      clearTarget_spec worker hcore hheld (hids id (mem_cons_self ..))
    exact ih (fun i hi => hids i (mem_cons_of_mem _ hi)) hcore' hheld'

theorem pruneIfPresent_spec {s : TreeState} {id : NodeId}
    {pending : List NodeId} (hcore : Core s word) (hheld : s.Held (id :: pending)) :
    Core (s.pruneIfPresent id) word ∧ (s.pruneIfPresent id).Held pending ∧
      (s.pruneIfPresent id).nodes.keys ⊆ s.nodes.keys := by
  unfold pruneIfPresent
  split
  · obtain ⟨ht, hheld', hsub, _⟩ := hcore.pruneCascade hheld
    exact ⟨ht, hheld', hsub⟩
  · next hgone =>
    refine ⟨hcore, hheld.mono ?_, subset_rfl⟩
    intro i n p hi _ hmem
    rcases mem_cons.mp hmem with rfl | hmem
    · exact absurd (Finmap.mem_of_lookup_eq_some hi) hgone
    · exact hmem

theorem foldl_pruneIfPresent_spec {pending : List NodeId} :
    ∀ {s : TreeState}, Core s word → s.Held pending →
      Core (pending.foldl pruneIfPresent s) word ∧ (pending.foldl pruneIfPresent s).Held [] := by
  induction pending with
  | nil => exact fun hcore hheld => ⟨hcore, hheld⟩
  | cons id pending ih =>
    intro s hcore hheld
    obtain ⟨hcore', hheld', _⟩ := pruneIfPresent_spec hcore hheld
    exact ih hcore' hheld'

theorem Core.clearWorker {s : TreeState} (hcore : Core s word)
    (hheld : s.Held []) (order : HashOrder) (worker : KvWorkerId) :
    Core (s.clearWorker order worker) word ∧ (s.clearWorker order worker).Held [] := by
  have hids : ∀ i ∈ (order.list s.nodes.keys).filter (· ≠ rootId), i ≠ rootId := by
    intro i hi
    simpa using (mem_filter.mp hi).2
  obtain ⟨hcore₁, hheld₁⟩ := @foldl_clearTarget_spec word worker _ hids (s, []) hcore hheld
  exact foldl_pruneIfPresent_spec hcore₁ hheld₁

/-! ## Section 3: Matching -/

theorem Inv.modifyTime {s : TreeState} (h : s.Inv) (i : NodeId) (now : Nat) :
    (s.modifyNode i fun n => { n with lastUsed := now }).Inv := by
  unfold modifyNode
  split
  · exact h
  · next n hn => exact h.touch hn rfl rfl id

theorem Inv.matchLoop {now : Nat} {hs : List Int64} : ∀ {s : TreeState} {current : NodeId}
    {last : Option NodeId} {matched : Nat}, s.Inv →
    (matchLoop now s current last matched hs).1.Inv := by
  induction hs with
  | nil => exact fun h => h
  | cons bh hs ih =>
    intro s current last matched h
    unfold TreeState.matchLoop
    split
    · exact h
    · exact ih (h.modifyTime _ now)

theorem Inv.matchPrefix {s : TreeState} (h : s.Inv) (order : HashOrder) (now : Nat)
    (parentHash : Option Int64) (blockHashes : List Int64) :
    (s.matchPrefix order now parentHash blockHashes).1.Inv := by
  unfold TreeState.matchPrefix
  split
  · exact h
  · exact h.matchLoop

/-! ## Section 4: Eviction -/

theorem Inv.exists_leaf {s : TreeState} (h : s.Inv) (hpos : 0 < s.nodeCount) :
    ∃ i n, s.nodes.lookup i = some n ∧ i ≠ rootId ∧ n.children.keys = ∅ := by
  obtain ⟨word, hcore, _⟩ := h
  have hne : (s.nodes.keys.erase rootId).Nonempty := by
    apply Finset.card_pos.mp
    have := Finset.pred_card_le_card_erase (a := rootId) (s := s.nodes.keys)
    unfold nodeCount at hpos
    omega
  obtain ⟨i, hi, hmax⟩ := Finset.exists_max_image _ (fun i => (word i).length) hne
  obtain ⟨hroot, hmem⟩ := Finset.mem_erase.mp hi
  obtain ⟨n, hn⟩ := Finmap.mem_iff.mp (Finmap.mem_keys.mp hmem)
  refine ⟨i, n, hn, hroot, children_empty_iff.mpr fun bh => ?_⟩
  cases hc : n.children.lookup bh with
  | none => rfl
  | some j =>
    obtain ⟨m, hm, hpar, _⟩ := hcore.child hn hc
    have hlt := hcore.trie.word_length_lt (heap_at hm) hpar
    have hle := hmax j (Finset.mem_erase.mpr
      ⟨hcore.ne_root hm hpar, Finmap.mem_keys.mpr (Finmap.mem_of_lookup_eq_some hm)⟩)
    omega

/-- A leaf of the tree other than the root. -/
def IsLeaf (s : TreeState) (i : NodeId) : Prop :=
  ∃ n, s.nodes.lookup i = some n ∧ i ≠ rootId ∧ n.children.keys = ∅

theorem oldestLeaf_spec (s : TreeState) (ids : List NodeId) :
    (∀ v, s.oldestLeaf ids = some v → s.IsLeaf v.2) ∧
      (s.oldestLeaf ids = none → ∀ i ∈ ids, ¬ s.IsLeaf i) := by
  unfold oldestLeaf
  -- the search is a fold from the left: the induction appends the last id
  induction ids using List.reverseRecOn with
  | nil => simp
  | append_singleton ids i ih =>
    rw [foldl_append, foldl_cons, foldl_nil]
    generalize List.foldl _ none ids = oldest at ih ⊢
    obtain ⟨hsome, hnone⟩ := ih
    have hskip : ¬ s.IsLeaf i → (∀ v, oldest = some v → s.IsLeaf v.2) ∧
        (oldest = none → ∀ j ∈ ids ++ [i], ¬ s.IsLeaf j) := by
      intro hi
      refine ⟨hsome, fun ho j hj => ?_⟩
      rcases mem_append.mp hj with hj | hj
      · exact hnone ho j hj
      · rw [mem_singleton.mp hj]
        exact hi
    split
    · next hl =>
      apply hskip
      rintro ⟨n, hn, _⟩
      rw [hl] at hn
      cases hn
    · next n hl =>
      split
      · next hno =>
        apply hskip
        rintro ⟨m, hm, hroot, hleaf⟩
        rw [hl] at hm
        cases hm
        exact hno.elim hroot fun hne => hne hleaf
      · next hyes =>
        have hleaf : s.IsLeaf i := by
          refine ⟨n, hl, ?_, ?_⟩
          · exact fun hroot => hyes (.inl hroot)
          · exact not_not.mp fun hne => hyes (.inr hne)
        split
        · exact ⟨fun v hv => by cases hv; exact hleaf, fun hv => by cases hv⟩
        · next cur w =>
          split
          · exact ⟨fun v hv => by cases hv; exact hleaf, fun hv => by cases hv⟩
          · exact ⟨hsome, fun hv => by cases hv⟩

theorem Inv.pruneIfPresent {s : TreeState} (h : s.Inv) (id : NodeId) :
    (s.pruneIfPresent id).Inv ∧ (s.pruneIfPresent id).nodes.keys ⊆ s.nodes.keys := by
  obtain ⟨word, hcore, hheld⟩ := h
  have hheld' : s.Held [id] := hheld.mono fun _ _ hmem => absurd hmem not_mem_nil
  obtain ⟨ht, hheld'', hsub⟩ := pruneIfPresent_spec hcore hheld'
  exact ⟨⟨word, ht, hheld''⟩, hsub⟩

theorem Inv.dropEmptyLeaves {maxSize : Nat} {ids : List NodeId} : ∀ {s : TreeState}, s.Inv →
    (dropEmptyLeaves maxSize s ids).Inv ∧
      (dropEmptyLeaves maxSize s ids).nodes.keys ⊆ s.nodes.keys := by
  induction ids with
  | nil => exact fun h => ⟨h, subset_rfl⟩
  | cons id ids ih =>
    intro s h
    unfold TreeState.dropEmptyLeaves
    split
    · exact ⟨h, subset_rfl⟩
    · obtain ⟨h₁, hsub₁⟩ := h.pruneIfPresent id
      obtain ⟨h₂, hsub₂⟩ := ih h₁
      exact ⟨h₂, hsub₂.trans hsub₁⟩

theorem Inv.evictLeaf {s : TreeState} (h : s.Inv) {i : NodeId} (hi : s.IsLeaf i) :
    ((s.modifyNode i fun n => { n with workers := ∅ }).pruneCascade i).Inv ∧
      ((s.modifyNode i fun n => { n with workers := ∅ }).pruneCascade i).nodes.keys ⊂
        s.nodes.keys := by
  obtain ⟨word, hcore, hheld⟩ := h
  obtain ⟨n, hn, hroot, hleaf⟩ := hi
  have hkeys := keys_modifyNode s i fun n => { n with workers := ∅ }
  rw [modifyNode_at hn] at hkeys ⊢
  have hcore' := hcore.touch (n := { n with workers := ∅ }) hn rfl rfl
  have hheld' : (s.setNode i { n with workers := ∅ }).Held [i] :=
    hheld.touch (fun _ => mem_singleton_self _) (by simp)
  obtain ⟨ht, hheld'', hsub, hgone⟩ := hcore'.pruneCascade hheld'
  rw [hkeys] at hsub
  refine ⟨⟨word, ht, hheld''⟩, Finset.ssubset_iff_subset_ne.mpr ⟨hsub, fun heq => ?_⟩⟩
  apply hgone _ (lookup_setNode_self ..) hroot ⟨rfl, hleaf⟩
  rw [heq]
  exact Finmap.mem_keys.mpr (Finmap.mem_of_lookup_eq_some hn)

theorem Inv.evictLoop {order : HashOrder} {maxSize iters : Nat} : ∀ {s : TreeState}, s.Inv →
    (evictLoop order maxSize iters s).Inv ∧
      (evictLoop order maxSize iters s).nodes.keys ⊆ s.nodes.keys ∧
      (s.nodes.keys.card ≤ iters → (evictLoop order maxSize iters s).nodeCount ≤ maxSize) := by
  induction iters with
  | zero =>
    intro s h
    refine ⟨h, subset_rfl, fun hcard => ?_⟩
    simp only [TreeState.evictLoop, nodeCount]
    omega
  | succ iters ih =>
    intro s h
    simp only [TreeState.evictLoop]
    split
    · next hgt =>
      obtain ⟨hsome, hnone⟩ := oldestLeaf_spec s (order.list s.nodes.keys)
      split
      · next hv =>
        -- a tree over the cap has a leaf
        obtain ⟨i, n, hn, hroot, hleaf⟩ := h.exists_leaf (Nat.lt_of_le_of_lt (Nat.zero_le _) hgt)
        refine absurd ⟨n, hn, hroot, hleaf⟩ (hnone hv i ((order.mem _ _).mpr ?_))
        exact Finmap.mem_keys.mpr (Finmap.mem_of_lookup_eq_some hn)
      · next ts victim hv =>
        obtain ⟨h₁, hsub₁⟩ := h.evictLeaf (hsome _ hv)
        obtain ⟨h₂, hsub₂, hcap⟩ := ih h₁
        refine ⟨h₂, hsub₂.trans hsub₁.subset, fun hcard => hcap ?_⟩
        have := Finset.card_lt_card hsub₁
        omega
    · next hle => exact ⟨h, subset_rfl, fun _ => not_lt.mp hle⟩

/-- `evict_lru` brings the tree under the cap and returns the number of nodes it removed. -/
theorem Inv.evictLru {s : TreeState} (h : s.Inv) (order : HashOrder) (maxSize : Nat) :
    (s.evictLru order maxSize).1.Inv ∧
      (s.evictLru order maxSize).1.nodes.keys ⊆ s.nodes.keys ∧
      (s.evictLru order maxSize).1.nodeCount ≤ maxSize ∧
      (s.evictLru order maxSize).2 =
        (s.nodes.keys \ (s.evictLru order maxSize).1.nodes.keys).card := by
  unfold TreeState.evictLru
  split
  · next hle => exact ⟨h, subset_rfl, hle, by simp⟩
  · dsimp only
    generalize hleaves : List.filter _ (order.list s.nodes.keys) = leaves
    obtain ⟨h₁, hsub₁⟩ := @Inv.dropEmptyLeaves maxSize leaves s h
    generalize TreeState.dropEmptyLeaves maxSize s leaves = s₁ at h₁ hsub₁ ⊢
    obtain ⟨h₂, hsub₂, hcap⟩ := @Inv.evictLoop order maxSize (s₁.nodes.keys.card + 1) s₁ h₁
    refine ⟨h₂, hsub₂.trans hsub₁, hcap (Nat.le_succ _), ?_⟩
    rw [Finset.card_sdiff_of_subset (hsub₂.trans hsub₁)]

end TreeState

/-! ## Section 5: Runs -/

/-- The calls on a `HashTree`, with the orders and times of their executions. -/
inductive HashTreeOp where
  | insert (order : HashOrder) (now : Nat) (worker : KvWorkerId) (parentHash : Option Int64)
      (blockHashes : List Int64)
  | remove (order : HashOrder) (worker : KvWorkerId) (blockHashes : List Int64)
  | clearWorker (order : HashOrder) (worker : KvWorkerId)
  | matchPrefix (order : HashOrder) (now : Nat) (parentHash : Option Int64)
      (blockHashes : List Int64)
  | evictLru (order : HashOrder) (maxSize : Nat)

def HashTreeOp.step (s : TreeState) : HashTreeOp → TreeState
  | .insert order now worker parentHash blockHashes =>
    s.insert order now worker parentHash blockHashes
  | .remove order worker blockHashes => s.remove order worker blockHashes
  | .clearWorker order worker => s.clearWorker order worker
  | .matchPrefix order now parentHash blockHashes =>
    (s.matchPrefix order now parentHash blockHashes).1
  | .evictLru order maxSize => (s.evictLru order maxSize).1

namespace TreeState

theorem Inv.new (now : Nat) : (TreeState.new now).Inv := by
  have hlookup : ∀ i, (TreeState.new now).nodes.lookup i =
      if i = rootId then some ⟨Int64.minValue, none, none, ∅, ∅, now⟩ else none := by
    intro i
    split
    · next hi =>
      subst hi
      exact Finmap.lookup_singleton_eq
    · next hi =>
      rw [Finmap.lookup_eq_none]
      simpa [TreeState.new] using hi
  have hnone : ∀ {i n p}, (TreeState.new now).nodes.lookup i = some n → n.parent = some p →
      False := by
    intro i n p hi hp
    rw [hlookup] at hi
    split at hi
    · cases hi
      cases hp
    · cases hi
  refine ⟨fun _ => [], ⟨⟨Nat.one_pos, ?_, ⟨rfl, ?_⟩, ?_, ?_, ?_, ?_⟩, ?_, ?_, ?_⟩, ?_⟩
  · exact ⟨_, heap_at (by rw [hlookup, if_pos rfl]), rfl, rfl⟩
  · intro i c p hi hp
    obtain ⟨n, hn, rfl⟩ := heap_some hi
    exact (hnone hn hp).elim
  · intro i c hi hroot
    obtain ⟨n, hn, rfl⟩ := heap_some hi
    rw [hlookup, if_neg hroot] at hn
    cases hn
  · intro i c hi hroot
    obtain ⟨n, hn, rfl⟩ := heap_some hi
    rw [hlookup, if_neg hroot] at hn
    cases hn
  · exact fun _ => one_dvd _
  · intro p pc k i hp hc
    obtain ⟨n, hn, rfl⟩ := heap_some hp
    rw [hlookup] at hn
    split at hn
    · cases hn
      cases hc
    · cases hn
  · intro i n hi
    rw [hlookup] at hi
    split at hi
    · next hroot =>
      subst hroot
      exact Nat.one_pos
    · cases hi
  · intro bh i
    constructor
    · rintro ⟨ids, hids, _⟩
      cases hids
    · rintro ⟨n, p, hn, hp, _⟩
      exact (hnone hn hp).elim
  · intro bh ids hids
    cases hids
  · exact fun i n p hi hp _ => (hnone hi hp).elim

theorem Inv.step {s : TreeState} (h : s.Inv) (op : HashTreeOp) : (op.step s).Inv := by
  cases op with
  | insert order now worker parentHash blockHashes =>
    exact h.insert order now worker parentHash blockHashes
  | remove order worker blockHashes =>
    obtain ⟨word, hcore, hheld⟩ := h
    exact ⟨word, hcore.foldl_removeTarget worker _ hheld⟩
  | clearWorker order worker =>
    obtain ⟨word, hcore, hheld⟩ := h
    exact ⟨word, hcore.clearWorker hheld order worker⟩
  | matchPrefix order now parentHash blockHashes =>
    exact h.matchPrefix order now parentHash blockHashes
  | evictLru order maxSize => exact (h.evictLru order maxSize).1

theorem Inv.run {ops : List HashTreeOp} : ∀ {s : TreeState}, s.Inv →
    (ops.foldl HashTreeOp.step s).Inv := by
  induction ops with
  | nil => exact fun h => h
  | cons op ops ih => exact fun h => ih (h.step op)

/-- The representation invariant, as the documentation of `TreeState` states it, and more. -/
structure Represents (s : TreeState) : Prop where
  /-- The root is present and is the only node without a parent. -/
  root : rootId ∈ s.nodes
  parent_none_iff : ∀ i n, s.nodes.lookup i = some n → (n.parent = none ↔ i = rootId)
  /-- A node is reached from its parent's child entry under its own block hash. -/
  linked : ∀ i n p, s.nodes.lookup i = some n → n.parent = some p →
    ∃ pn, s.nodes.lookup p = some pn ∧ pn.children.lookup n.blockHash = some i
  /-- No child entry dangles. -/
  child : ∀ p pn bh i, s.nodes.lookup p = some pn → pn.children.lookup bh = some i →
    ∃ n, s.nodes.lookup i = some n ∧ n.parent = some p ∧ n.blockHash = bh
  by_hash : ∀ bh ids, s.byHash.lookup bh = some ids → ids ≠ ∅ ∧
    ∀ i, i ∈ ids ↔ i ≠ rootId ∧ ∃ n, s.nodes.lookup i = some n ∧ n.blockHash = bh
  by_hash_none : ∀ bh, s.byHash.lookup bh = none →
    ∀ i n, s.nodes.lookup i = some n → i ≠ rootId → n.blockHash ≠ bh
  leaf_held : ∀ i n, s.nodes.lookup i = some n → i ≠ rootId → n.children.keys = ∅ → n.workers ≠ ∅

theorem Inv.represents {s : TreeState} (h : s.Inv) : s.Represents := by
  obtain ⟨word, hcore, hheld⟩ := h
  obtain ⟨rn, hrn, hrpar⟩ := hcore.root
  have hparent : ∀ {i n}, s.nodes.lookup i = some n → i ≠ rootId → ∃ p, n.parent = some p := by
    intro i n hi hroot
    obtain ⟨p, _, hp, _⟩ := hcore.parent hi hroot
    exact ⟨p, hp⟩
  refine ⟨Finmap.mem_of_lookup_eq_some hrn, ?_, ?_, ?_, ?_, ?_, ?_⟩
  · intro i n hi
    constructor
    · intro hnone
      by_contra hroot
      obtain ⟨p, hp⟩ := hparent hi hroot
      rw [hnone] at hp
      cases hp
    · rintro rfl
      rw [hrn] at hi
      cases hi
      exact hrpar
  · intro i n p hi hp
    obtain ⟨q, pn, hq, hpn, hfile⟩ := hcore.parent hi (hcore.ne_root hi hp)
    rw [hp] at hq
    cases hq
    exact ⟨pn, hpn, hfile⟩
  · exact fun p pn bh i hp hc => hcore.child hp hc
  · intro bh ids hids
    refine ⟨hcore.by_hash_ne hids, fun i => ?_⟩
    have hiff := hcore.by_hash bh i
    simp only [hids, Option.some.injEq, exists_eq_left'] at hiff
    rw [hiff]
    constructor
    · rintro ⟨n, p, hn, hp, hhash⟩
      exact ⟨hcore.ne_root hn hp, n, hn, hhash⟩
    · rintro ⟨hroot, n, hn, hhash⟩
      obtain ⟨p, hp⟩ := hparent hn hroot
      exact ⟨n, p, hn, hp, hhash⟩
  · intro bh hnone i n hi hroot hhash
    obtain ⟨p, hp⟩ := hparent hi hroot
    obtain ⟨ids, hids, _⟩ := (hcore.by_hash bh i).mpr ⟨n, p, hi, hp, hhash⟩
    rw [hnone] at hids
    cases hids
  · intro i n hi hroot hleaf hempty
    obtain ⟨p, hp⟩ := hparent hi hroot
    exact absurd (hheld hi hp ⟨hempty, hleaf⟩) not_mem_nil

end TreeState

/-- The state and the count that `evict_lru` returns, from the state `s`. -/
structure Evicts (maxSize : Nat) (s : TreeState) (r : TreeState × Nat) : Prop where
  subset : r.1.nodes.keys ⊆ s.nodes.keys
  capped : (r.1.nodes.keys.erase rootId).card ≤ maxSize
  count : r.2 = (s.nodes.keys \ r.1.nodes.keys).card

/-- The state after a sequence of calls on a new tree. -/
def HashTreeOp.run (now : Nat) (ops : List HashTreeOp) : TreeState :=
  ops.foldl HashTreeOp.step (TreeState.new now)

/-- After every sequence of calls, with any workers and hashes and any orders of iteration, the
representation invariant holds; and `evict_lru` then leaves at most the given number of non-root
nodes and returns the number of nodes it removed. -/
theorem hash_tree_invariant (now : Nat) (ops : List HashTreeOp) :
    (HashTreeOp.run now ops).Represents ∧ ∀ (order : HashOrder) (maxSize : Nat),
      Evicts maxSize (HashTreeOp.run now ops)
      ((HashTreeOp.run now ops).evictLru order maxSize) := by
  have h : (HashTreeOp.run now ops).Inv := (TreeState.Inv.new now).run
  refine ⟨h.represents, fun order maxSize => ?_⟩
  obtain ⟨ht, hsub, hcap, hcount⟩ := h.evictLru order maxSize
  refine ⟨hsub, ?_, hcount⟩
  rw [Finset.card_erase_of_mem (Finmap.mem_keys.mpr ht.represents.root)]
  exact hcap

/-- A leaf that loses its last worker takes its empty parent with it. -/
example : (HashTreeOp.run 0 [.insert .ascending 0 ⟨"a", 0⟩ none [1, 2],
    .insert .ascending 0 ⟨"b", 0⟩ none [3], .remove .ascending ⟨"a", 0⟩ [1, 2]]).nodes.keys =
    {rootId, 3} := by decide +kernel

end Sglang.Router
