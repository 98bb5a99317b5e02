import Sglang.Router.HashTreeInvariant

/-!
# The Workers of the Hash Tree

Which workers the nodes of the tree list, and how the calls change that.

- `insert` adds no worker but its own,
- `remove` and `clear_worker` add none,
- after `clear_worker` no node lists the worker.
-/

namespace Sglang.Router

namespace TreeState

/-- The node `i` lists the worker. -/
def Lists (s : TreeState) (i : NodeId) (w : KvWorkerId) : Prop :=
  ∃ n, s.nodes.lookup i = some n ∧ w ∈ n.workers

def Shows (s : TreeState) (w : KvWorkerId) : Prop := ∃ i, i ≠ rootId ∧ s.Lists i w

/-- No node of `t` lists a worker that it did not list in `s`. -/
def Fewer (t s : TreeState) : Prop := ∀ ⦃i w⦄, t.Lists i w → s.Lists i w

variable (s : TreeState) (i : NodeId) (n : Node) (worker : KvWorkerId) (order : HashOrder)

theorem Fewer.refl : s.Fewer s := fun _ _ h => h

theorem Fewer.trans {s t u : TreeState} (h : u.Fewer t) (h' : t.Fewer s) : u.Fewer s :=
  fun _ _ hu => h' (h hu)

theorem Fewer.shows {s t : TreeState} (h : t.Fewer s) {w : KvWorkerId} : t.Shows w → s.Shows w := by
  rintro ⟨i, hi, hl⟩
  exact ⟨i, hi, h hl⟩

theorem lists_setNode_self (w : KvWorkerId) :
    (s.setNode i n).Lists i w ↔ w ∈ n.workers := by
  simp [Lists, setNode]

theorem lists_setNode_ne {i j : NodeId} (w : KvWorkerId) (h : j ≠ i) :
    (s.setNode i n).Lists j w ↔ s.Lists j w := by
  rw [Lists, Lists, lookup_setNode_ne s n h]

theorem fewer_setNode {s : TreeState} {i : NodeId} {n m : Node} (hi : s.nodes.lookup i = some n)
    (hsub : m.workers ⊆ n.workers) : (s.setNode i m).Fewer s := by
  intro j w hl
  by_cases hj : j = i
  · subst hj
    rw [lists_setNode_self] at hl
    exact ⟨n, hi, hsub hl⟩
  · rwa [lists_setNode_ne s m w hj] at hl

theorem fewer_modifyNode {f : Node → Node}
    (hf : ∀ n, (f n).workers ⊆ n.workers) : (s.modifyNode i f).Fewer s := by
  unfold modifyNode
  split
  · exact Fewer.refl s
  · next n hn => exact fewer_setNode hn (hf n)

/-! ## Section 1: Pruning -/

theorem fewer_detach (p : NodeId) :
    (s.detach i n p).Fewer s := by
  intro j w hl
  obtain ⟨m, hm, hw⟩ := hl
  have hparent : (s.modifyNode p fun parent =>
      { parent with children := parent.children.erase n.blockHash }).Fewer s :=
    fewer_modifyNode s p fun _ => subset_rfl
  apply hparent
  refine ⟨m, ?_, hw⟩
  by_cases hj : j = i
  · subst hj
    simp [detach] at hm
  · simpa [detach, Finmap.lookup_erase_ne hj] using hm

theorem fewer_pruneCascade : (s.pruneCascade i).Fewer s := by
  fun_induction pruneCascade s i with
  | case1 => exact Fewer.refl _
  | case2 => exact Fewer.refl _
  | case3 => exact Fewer.refl _
  | case4 s cursor _ n _ p _ _ _ => exact fewer_detach s cursor n p
  | case5 s cursor _ n _ p _ _ =>
    rename_i ih
    exact ih.trans (fewer_detach s cursor n p)
  | case6 s cursor _ n _ p _ _ _ _ _ => exact fewer_detach s cursor n p
  | case7 => exact Fewer.refl _

theorem fewer_pruneIfPresent : (s.pruneIfPresent i).Fewer s := by
  unfold pruneIfPresent
  split
  · exact fewer_pruneCascade s i
  · exact Fewer.refl s

theorem fewer_foldl {f : TreeState → NodeId → TreeState} (hf : ∀ s i, (f s i).Fewer s)
    (ids : List NodeId) : ∀ s : TreeState, (ids.foldl f s).Fewer s := by
  induction ids with
  | nil => exact Fewer.refl
  | cons i ids ih => exact fun s => (ih (f s i)).trans (hf s i)

/-! ## Section 2: Removal -/

theorem fewer_removeTarget (s : TreeState) (i : NodeId) :
    (removeTarget worker s i).Fewer s := by
  unfold removeTarget
  split
  · exact Fewer.refl s
  · next n hn =>
    have hset : (s.setNode i { n with workers := n.workers.erase worker }).Fewer s :=
      fewer_setNode hn (Finset.erase_subset _ _)
    dsimp only
    split
    · exact (fewer_pruneCascade _ i).trans hset
    · exact hset

theorem fewer_remove (worker : KvWorkerId)
    (blockHashes : List Int64) : (s.remove order worker blockHashes).Fewer s :=
  fewer_foldl (fewer_removeTarget worker) _ s

theorem clearTarget_fst (acc : TreeState × List NodeId) (i : NodeId) :
    (clearTarget worker acc i).1 =
      acc.1.modifyNode i fun n => { n with workers := n.workers.erase worker } := by
  obtain ⟨s, candidates⟩ := acc
  unfold clearTarget modifyNode
  dsimp only
  cases s.nodes.lookup i <;> rfl

theorem foldl_clearTarget_lists (ids : List NodeId) :
    ∀ acc : TreeState × List NodeId, (ids.foldl (clearTarget worker) acc).1.Fewer acc.1 ∧
      ∀ i ∈ ids, ¬ (ids.foldl (clearTarget worker) acc).1.Lists i worker := by
  induction ids with
  | nil => exact fun acc => ⟨Fewer.refl _, by simp⟩
  | cons i ids ih =>
    intro acc
    obtain ⟨hfewer, hgone⟩ := ih (clearTarget worker acc i)
    have hstep : (clearTarget worker acc i).1.Fewer acc.1 := by
      rw [clearTarget_fst]
      exact fewer_modifyNode _ i fun n => Finset.erase_subset _ _
    refine ⟨hfewer.trans hstep, ?_⟩
    intro j hj hl
    rcases List.mem_cons.mp hj with rfl | hj
    · have hl := hfewer hl
      rw [clearTarget_fst, modifyNode] at hl
      split at hl
      · next hnone =>
        obtain ⟨n, hn, _⟩ := hl
        rw [hnone] at hn
        cases hn
      · rw [lists_setNode_self] at hl
        simp at hl
    · exact hgone j hj hl

theorem fewer_clearWorker (worker : KvWorkerId) :
    (s.clearWorker order worker).Fewer s :=
  (fewer_foldl fewer_pruneIfPresent _ _).trans (foldl_clearTarget_lists worker _ (s, [])).1

theorem not_shows_clearWorker (worker : KvWorkerId) :
    ¬ (s.clearWorker order worker).Shows worker := by
  rintro ⟨i, hi, hl⟩
  have hl := fewer_foldl fewer_pruneIfPresent _ _ hl
  obtain ⟨hfewer, hgone⟩ := foldl_clearTarget_lists worker
    ((order.list s.nodes.keys).filter (· ≠ rootId)) (s, [])
  obtain ⟨n, hn, _⟩ := hfewer hl
  refine hgone i ?_ hl
  rw [List.mem_filter, order.mem]
  exact ⟨Finmap.mem_keys.mpr (Finmap.mem_of_lookup_eq_some hn), by simpa using hi⟩

/-! ## Section 3: Insertion -/

theorem fewer_createChild (now : Nat) (p : NodeId) (h : Int64)
    (prev : Option Int64) : (s.createChild now p h prev).1.Fewer s := by
  have hnew : (({ s with nextId := s.nextId + 1 } : TreeState).setNode s.nextId
      (.newChild h prev p now)).Fewer s := by
    intro j w hl
    by_cases hj : j = s.nextId
    · subst hj
      rw [lists_setNode_self] at hl
      simp [Node.newChild] at hl
    · exact (lists_setNode_ne _ _ w hj).mp hl
  unfold createChild
  dsimp only
  split
  · rintro j w ⟨n, hn, hw⟩
    apply hnew
    refine ⟨n, ?_, hw⟩
    by_cases hj : j = s.nextId
    · subst hj
      simp at hn
    · simpa [Finmap.lookup_erase_ne hj] using hn
  · next pn hpn => exact (fewer_setNode hpn (by exact subset_rfl)).trans hnew

theorem insertLoop_lists {now : Nat} {worker : KvWorkerId} {hs : List Int64} :
    ∀ {s : TreeState} {current : NodeId} {prev : Option Int64} {i : NodeId} {w : KvWorkerId},
      (insertLoop now worker s current prev hs).Lists i w → s.Lists i w ∨ w = worker := by
  induction hs with
  | nil => exact fun h => .inl h
  | cons h hs ih =>
    intro s current prev i w hl
    have hrest : ∀ (t : TreeState) (id : NodeId) (n : Node), t.Fewer s →
      t.nodes.lookup id = some n → TreeState.Lists (insertLoop now worker (t.setNode id
          { n with workers := Insert.insert worker n.workers, lastUsed := now }) id
          (some h) hs) i w →
        s.Lists i w ∨ w = worker := by
      intro t id n hfewer hn hl
      rcases ih hl with hl | hw
      · by_cases hi : i = id
        · subst hi
          rw [lists_setNode_self] at hl
          rcases Finset.mem_insert.mp hl with hw | hw
          · exact .inr hw
          · exact .inl (hfewer ⟨n, hn, hw⟩)
        · exact .inl (hfewer ((lists_setNode_ne t _ w hi).mp hl))
      · exact .inr hw
    unfold insertLoop at hl
    dsimp only at hl
    -- The node for `h` is there, or it is a new one without workers.
    cases hfound : (s.nodes.lookup current).bind fun n => n.children.lookup h with
    | some id =>
      rw [hfound] at hl
      dsimp only at hl
      split at hl
      · exact .inl hl
      · next n hn => exact hrest s id n (Fewer.refl s) hn hl
    | none =>
      have hfewer := fewer_createChild s now current h prev
      rw [hfound] at hl
      dsimp only at hl
      split at hl
      · exact .inl (hfewer hl)
      · next id _ =>
        split at hl
        · exact .inl (hfewer hl)
        · next n hn => exact hrest _ id n hfewer hn hl

theorem shows_insert {s : TreeState} {order : HashOrder} {now : Nat} {worker w : KvWorkerId}
    {parentHash : Option Int64} {blockHashes : List Int64}
    (h : (s.insert order now worker parentHash blockHashes).Shows w) : s.Shows w ∨ w = worker := by
  obtain ⟨i, hi, hl⟩ := h
  unfold TreeState.insert at hl
  split at hl
  · exact .inl ⟨i, hi, hl⟩
  · rcases insertLoop_lists hl with hl | hw
    · exact .inl ⟨i, hi, hl⟩
    · exact .inr hw

theorem not_shows_new (now : Nat) (w : KvWorkerId) : ¬ (TreeState.new now).Shows w := by
  rintro ⟨i, hi, n, hn, _⟩
  have hnone : (TreeState.new now).nodes.lookup i = none := by
    rw [Finmap.lookup_eq_none]
    simpa [TreeState.new] using hi
  rw [hnone] at hn
  cases hn

end TreeState

end Sglang.Router
