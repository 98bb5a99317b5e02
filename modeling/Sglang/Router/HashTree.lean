import Mathlib.Data.Finmap
import Mathlib.Data.Finset.Sort
import Sglang.Lib.PageTrieMutation

/-!
# The Hash Tree of the Router

Model of `TreeState` (`kv_events/tree.rs`): an arena of nodes keyed by id, with parent pointers and
child maps by block hash, and the reverse index `by_hash`.

## Conventions

- A `HashMap` is a `Finmap` and a `HashSet` a `Finset`. Each call comes with the order in which it
  happens to iterate over them (`HashOrder`).
- Each call comes with the time `now_millis()` it reads.
- `next_id` is a natural number: it is `u64` in the source.
-/

namespace Sglang.Router

structure KvWorkerId where
  url : String
  dpRank : Nat
deriving DecidableEq

abbrev NodeId := Nat

def rootId : NodeId := 0

/-- A tree node. -/
structure Node where
  blockHash : Int64
  parentBlockHash : Option Int64
  parent : Option NodeId
  workers : Finset KvWorkerId
  children : Finmap fun _ : Int64 => NodeId
  lastUsed : Nat

/-- The order in which a call iterates over its hash sets and maps. -/
structure HashOrder where
  list : Finset NodeId → List NodeId
  nodup : ∀ s, (list s).Nodup
  mem : ∀ s x, x ∈ list s ↔ x ∈ s

def HashOrder.ascending : HashOrder where
  list := fun s => s.sort (· ≤ ·)
  nodup := fun s => s.sort_nodup (· ≤ ·)
  mem := by simp

structure TreeState where
  nodes : Finmap fun _ : NodeId => Node
  byHash : Finmap fun _ : Int64 => Finset NodeId
  nextId : NodeId

structure MatchResult where
  matchedBlocks : Nat
  workers : Finset KvWorkerId

def Node.newChild (blockHash : Int64) (parentBlockHash : Option Int64) (parent : NodeId)
    (now : Nat) : Node :=
  ⟨blockHash, parentBlockHash, some parent, ∅, ∅, now⟩

def Node.Prunable (n : Node) : Prop := n.workers = ∅ ∧ n.children.keys = ∅

instance (n : Node) : Decidable n.Prunable := inferInstanceAs (Decidable (_ ∧ _))

namespace TreeState

/-! ## Section 1: Nodes -/

def new (now : Nat) : TreeState where
  nodes := Finmap.singleton rootId ⟨Int64.minValue, none, none, ∅, ∅, now⟩
  byHash := ∅
  nextId := 1

def nodeCount (s : TreeState) : Nat := s.nodes.keys.card - 1

def setNode (s : TreeState) (i : NodeId) (n : Node) : TreeState :=
  { s with nodes := s.nodes.insert i n }

/-- `self.nodes.get_mut(&i)`, and a change of the node if there is one. -/
def modifyNode (s : TreeState) (i : NodeId) (f : Node → Node) : TreeState :=
  match s.nodes.lookup i with
  | none => s
  | some n => s.setNode i (f n)

def createChild (s : TreeState) (now : Nat) (parentId : NodeId) (blockHash : Int64)
    (parentBlockHash : Option Int64) : TreeState × Option NodeId :=
  let id := s.nextId
  let s := { s with nextId := s.nextId + 1 }
  let s := s.setNode id (.newChild blockHash parentBlockHash parentId now)
  match s.nodes.lookup parentId with
  | none => ({ s with nodes := s.nodes.erase id }, none)
  | some parent =>
    let s := s.setNode parentId { parent with children := parent.children.insert blockHash id }
    let ids := (s.byHash.lookup blockHash).getD ∅
    ({ s with byHash := s.byHash.insert blockHash (insert id ids) }, some id)

/-! ## Section 2: Insertion -/

def resolveParent (s : TreeState) (order : HashOrder) (worker : KvWorkerId)
    (parentHash : Option Int64) : NodeId :=
  match parentHash with
  | none => rootId
  | some h =>
    match s.byHash.lookup h with
    | none => rootId
    | some candidates =>
      if candidates.card = 1 then (order.list candidates).headD rootId
      else
        ((order.list candidates).find? fun cand =>
          match s.nodes.lookup cand with
          | none => false
          | some n => worker ∈ n.workers).getD rootId

/-- The loop of `insert`: `current` is the node reached so far. -/
def insertLoop (now : Nat) (worker : KvWorkerId) :
    TreeState → NodeId → Option Int64 → List Int64 → TreeState
  | s, _, _, [] => s
  | s, current, prevHash, h :: hs =>
    let found := (s.nodes.lookup current).bind fun n => n.children.lookup h
    let (s, child) :=
      match found with
      | some id => (s, some id)
      | none => s.createChild now current h prevHash
    match child with
    | none => s
    | some id =>
      match s.nodes.lookup id with
      | none => s
      | some n =>
        let s := s.setNode id { n with workers := insert worker n.workers, lastUsed := now }
        insertLoop now worker s id (some h) hs

def insert (s : TreeState) (order : HashOrder) (now : Nat) (worker : KvWorkerId)
    (parentHash : Option Int64) (blockHashes : List Int64) : TreeState :=
  if blockHashes = [] then s
  else insertLoop now worker s (s.resolveParent order worker parentHash) parentHash blockHashes

/-! ## Section 3: Pruning -/

/-- One iteration of `prune_cascade`: the node leaves its parent, the reverse index and the
arena. -/
def detach (s : TreeState) (cursor : NodeId) (n : Node) (parentId : NodeId) : TreeState :=
  let s := s.modifyNode parentId fun parent =>
    { parent with children := parent.children.erase n.blockHash }
  let byHash :=
    match s.byHash.lookup n.blockHash with
    | none => s.byHash
    | some ids =>
      if ids.erase cursor = ∅ then s.byHash.erase n.blockHash
      else s.byHash.insert n.blockHash (ids.erase cursor)
  { s with byHash := byHash, nodes := s.nodes.erase cursor }

theorem keys_modifyNode (s : TreeState) (i : NodeId) (f : Node → Node) :
    (s.modifyNode i f).nodes.keys = s.nodes.keys := by
  unfold modifyNode
  split
  · rfl
  · next n hn =>
    ext j
    simp only [setNode, Finmap.mem_keys, Finmap.mem_insert, or_iff_right_iff_imp]
    rintro rfl
    exact Finmap.mem_of_lookup_eq_some hn

theorem keys_detach (s : TreeState) (cursor : NodeId) (n : Node) (p : NodeId) :
    (s.detach cursor n p).nodes.keys = s.nodes.keys.erase cursor := by
  simp only [detach, Finmap.keys_erase, keys_modifyNode]

/-- `prune_cascade`: detach a node and every ancestor that becomes empty. -/
def pruneCascade (s : TreeState) (cursor : NodeId) : TreeState :=
  if cursor = rootId then s
  else
    match _hn : s.nodes.lookup cursor with
    | none => s
    | some n =>
      match n.parent with
      | none => s
      | some p =>
        if n.Prunable then
          let s' := s.detach cursor n p
          match s'.nodes.lookup p with
          | none => s'
          | some pn => if p ≠ rootId ∧ pn.Prunable then pruneCascade s' p else s'
        else s
termination_by s.nodes.keys.card
decreasing_by
  rw [keys_detach]
  exact Finset.card_erase_lt_of_mem (Finmap.mem_keys.mpr (Finmap.mem_of_lookup_eq_some _hn))

/-! ## Section 4: Removal -/

/-- The body of the loop of `remove`. -/
def removeTarget (worker : KvWorkerId) (s : TreeState) (id : NodeId) : TreeState :=
  match s.nodes.lookup id with
  | none => s
  | some n =>
    let n := { n with workers := n.workers.erase worker }
    let s := s.setNode id n
    if n.Prunable then s.pruneCascade id else s

def remove (s : TreeState) (order : HashOrder) (worker : KvWorkerId) (blockHashes : List Int64) :
    TreeState :=
  let targets := blockHashes.flatMap fun h =>
    match s.byHash.lookup h with
    | none => []
    | some ids => order.list ids
  targets.foldl (removeTarget worker) s

/-- The first loop of `clear_worker`. -/
def clearTarget (worker : KvWorkerId) (acc : TreeState × List NodeId) (id : NodeId) :
    TreeState × List NodeId :=
  let (s, candidates) := acc
  match s.nodes.lookup id with
  | none => (s, candidates)
  | some n =>
    let n' := { n with workers := n.workers.erase worker }
    (s.setNode id n',
      if worker ∈ n.workers ∧ n'.Prunable then candidates ++ [id] else candidates)

/-- `if self.nodes.contains_key(&id) { self.prune_cascade(id) }`. -/
def pruneIfPresent (s : TreeState) (id : NodeId) : TreeState :=
  if id ∈ s.nodes then s.pruneCascade id else s

def clearWorker (s : TreeState) (order : HashOrder) (worker : KvWorkerId) : TreeState :=
  let ids := (order.list s.nodes.keys).filter (· ≠ rootId)
  let (s, candidates) := ids.foldl (clearTarget worker) (s, [])
  candidates.foldl pruneIfPresent s

/-! ## Section 5: Matching -/

/-- The loop of `match_prefix`: the nodes on the way are touched. -/
def matchLoop (now : Nat) : TreeState → NodeId → Option NodeId → Nat → List Int64 →
    TreeState × Option NodeId × Nat
  | s, _, last, matched, [] => (s, last, matched)
  | s, current, last, matched, h :: hs =>
    match (s.nodes.lookup current).bind fun n => n.children.lookup h with
    | none => (s, last, matched)
    | some id =>
      matchLoop now (s.modifyNode id fun n => { n with lastUsed := now }) id (some id)
      (matched + 1) hs

def matchPrefix (s : TreeState) (order : HashOrder) (now : Nat) (parentHash : Option Int64)
    (blockHashes : List Int64) : TreeState × MatchResult :=
  if blockHashes = [] then (s, ⟨0, ∅⟩)
  else
    let start :=
      match parentHash.bind fun p => s.byHash.lookup p with
      | none => rootId
      | some ids => if ids.card = 1 then (order.list ids).headD rootId else rootId
    let (s, last, matched) := matchLoop now s start none 0 blockHashes
    let workers := ((last.bind fun id => s.nodes.lookup id).map Node.workers).getD ∅
    (s, ⟨matched, workers⟩)

/-! ## Section 6: Eviction -/

/-- The loop over the empty leaves in the first phase of `evict_lru`. -/
def dropEmptyLeaves (maxSize : Nat) : TreeState → List NodeId → TreeState
  | s, [] => s
  | s, id :: ids =>
    if s.nodeCount ≤ maxSize then s else dropEmptyLeaves maxSize (s.pruneIfPresent id) ids

/-- The oldest leaf in the order of the iteration; ties go to the first. -/
def oldestLeaf (s : TreeState) (ids : List NodeId) : Option (Nat × NodeId) :=
  ids.foldl (fun oldest id =>
    match s.nodes.lookup id with
    | none => oldest
    | some n =>
      if id = rootId ∨ n.children.keys ≠ ∅ then oldest
      else
        match oldest with
        | none => some (n.lastUsed, id)
        | some (cur, _) => if n.lastUsed < cur then some (n.lastUsed, id) else oldest) none

/-- The second phase of `evict_lru`, at most `iters` passes. -/
def evictLoop (order : HashOrder) (maxSize : Nat) : Nat → TreeState → TreeState
  | 0, s => s
  | iters + 1, s =>
    if s.nodeCount > maxSize then
      match s.oldestLeaf (order.list s.nodes.keys) with
      | none => s
      | some (_, victim) =>
        evictLoop order maxSize iters
          ((s.modifyNode victim fun n => { n with workers := ∅ }).pruneCascade victim)
    else s

/-- `evict_lru`: the state and the number of nodes removed. -/
def evictLru (s : TreeState) (order : HashOrder) (maxSize : Nat) : TreeState × Nat :=
  if s.nodeCount ≤ maxSize then (s, 0)
  else
    let countBefore := s.nodes.keys.card
    let emptyLeaves := (order.list s.nodes.keys).filter fun id =>
      match s.nodes.lookup id with
      | none => false
      | some n => id ≠ rootId ∧ n.Prunable
    let s := dropEmptyLeaves maxSize s emptyLeaves
    let s := evictLoop order maxSize (s.nodes.keys.card + 1) s
    (s, countBefore - s.nodes.keys.card)

end TreeState

end Sglang.Router
