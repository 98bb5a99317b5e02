import Sglang.MemCache.RadixCache

/-!
# The Tree of the Unified Radix Cache

Nodes of `UnifiedRadixCache` (`mem_cache/unified_radix_cache.py`) carry data for several components,
each with a device value and a host value. The module models `_split_node` and what it calls, and
says what a cut does to the links and to the SWA host values (`splitNode_spec`).
-/

namespace Sglang.MemCache.Unified

open Option Function
open Sglang.Lib

/-! ## Section 1: Data -/

inductive ComponentType where
  | full
  | swa
  | mamba
deriving DecidableEq, Repr

/-- `ComponentData`; `uuid` is the only key of its `metadata`. -/
structure ComponentData where
  value : Option (List Nat) := none
  lockRef : Int := 0
  uuid : Option Nat := none
  hostValue : Option (List Nat) := none
  hostLockRef : Int := 0
deriving DecidableEq, Repr

structure UnifiedTreeNode where
  parent : Option Nat
  children : Children
  key : RadixKey
  componentData : ComponentType → ComponentData
  lastAccessTime : Nat
  creationTime : Nat
  hashValue : Option (List String) := none
  hitCount : Nat := 0
  priority : Int := 0
  writeThroughPendingId : Option Nat := none

structure OngoingWriteThrough where
  node : Nat
  lockParams : Option (Option Nat)
  publishNodes : List Nat

/-- The constructor parameters that are read here; `components` is a dictionary, so no component
comes twice. -/
structure UnifiedConfig where
  pageSize : Nat
  treeComponents : List ComponentType
  components_nodup : treeComponents.Nodup

/-- The state of a `UnifiedRadixCache`; the LRU lists start at the most recent node.
`hostMemRelease` are the SWA slots handed to `append_host_mem_release` of the cache controller. -/
structure UnifiedCache where
  nodes : Nat → Option UnifiedTreeNode
  counter : Nat
  rootNode : Nat
  timeCounter : Nat := 1
  lruLists : ComponentType → List Nat := fun _ => []
  hostLruLists : ComponentType → List Nat := fun _ => []
  evictableDeviceLeaves : List Nat := []
  evictableHostLeaves : List Nat := []
  ongoingWriteThrough : Nat → Option OngoingWriteThrough := fun _ => none
  hostMemRelease : List (List Nat) := []

def UnifiedTreeNode.evicted (n : UnifiedTreeNode) : Bool :=
  n.parent.isSome && (n.componentData .full).value.isNone

def UnifiedTreeNode.backuped (n : UnifiedTreeNode) : Bool :=
    (n.componentData .full).hostValue.isSome

/-- The links of a node and its SWA host value. -/
structure HostView where
  parent : Option Nat
  key : RadixKey
  hostValue : Option (List Nat)

def UnifiedTreeNode.hostView (n : UnifiedTreeNode) : HostView :=
  ⟨n.parent, n.key, (n.componentData .swa).hostValue⟩

namespace UnifiedCache

def modifyNode (s : UnifiedCache) (i : Nat) (f : UnifiedTreeNode → UnifiedTreeNode) :
    UnifiedCache :=
  { s with nodes := Function.update s.nodes i ((s.nodes i).map f) }

/-! ## Section 2: Leaf sets and LRU lists -/

/-- Every component of the node, enabled or not. -/
def anyComponent (n : UnifiedTreeNode) (p : ComponentData → Bool) : Bool :=
  p (n.componentData .full) || p (n.componentData .swa) || p (n.componentData .mamba)

def isDeviceLeaf (s : UnifiedCache) (node : Nat) (n : UnifiedTreeNode) : Bool :=
  if node = s.rootNode ∨ n.evicted then false
  else if anyComponent n fun cd => decide (0 < cd.lockRef) then false
  else !n.children.entries.any fun e =>
    ((s.nodes e.2).bind fun c => (c.componentData .full).value).isSome

def isHostLeaf (s : UnifiedCache) (node : Nat) (n : UnifiedTreeNode) : Bool :=
  if node = s.rootNode ∨ !n.evicted then false
  else if !n.backuped then false
  else if anyComponent n fun cd => decide (0 < cd.hostLockRef) then false
  else n.children.entries.isEmpty

/-- `set.add` and `set.discard`. -/
def addOrDiscard (l : List Nat) (i : Nat) (isMember : Bool) : List Nat :=
  if isMember then (if i ∈ l then l else i :: l) else l.filter (· ≠ i)

def updateEvictableLeafSets (s : UnifiedCache) (node : Nat) : UnifiedCache :=
  match s.nodes node with
  | none => s
  | some n =>
    { s with
      evictableDeviceLeaves := addOrDiscard s.evictableDeviceLeaves node (s.isDeviceLeaf node n)
      evictableHostLeaves := addOrDiscard s.evictableHostLeaves node (s.isHostLeaf node n) }

/-- `UnifiedLRUList.insert_mru`; `none` for the assertion. -/
def insertMru (lru : List Nat) (node : Nat) : Option (List Nat) :=
  if node ∈ lru then none else some (node :: lru)

/-- `UnifiedLRUList.remove_node`; `none` for the assertion. -/
def removeNode (lru : List Nat) (node : Nat) : Option (List Nat) :=
  if node ∈ lru then some (lru.erase node) else none

/-- The step of `_for_each_component_lru` for one component of the node. -/
def componentLru (op : List Nat → Nat → Option (List Nat)) (skipExisting : Bool) (node : Nat)
    (n : UnifiedTreeNode) (lruLists : ComponentType → List Nat) (ct : ComponentType) : Option
    (ComponentType → List Nat) :=
  if ct = .full then some lruLists
  else if (n.componentData ct).value.isSome then
    if skipExisting ∧ node ∈ lruLists ct then some lruLists
    else do
      let lru ← op (lruLists ct) node
      some (Function.update lruLists ct lru)
  else some lruLists

/-- `_for_each_component_lru` on the device lists. -/
def forEachComponentLru (cfg : UnifiedConfig) (s : UnifiedCache) (node : Nat)
    (op : List Nat → Nat → Option (List Nat)) (skipExisting : Bool) : Option UnifiedCache := do
  let n ← s.nodes node
  let lruLists ← cfg.treeComponents.foldlM (componentLru op skipExisting node n) s.lruLists
  some { s with lruLists }

/-! ## Section 3: Splitting -/

/-- `node.write_through_pending_id = ack_id`. -/
def setPendingId (ackId : Nat) (n : UnifiedTreeNode) : UnifiedTreeNode :=
    { n with writeThroughPendingId := some ackId }

def replacePendingWriteThroughNode (s : UnifiedCache) (oldNode : Nat) (newNodes : List Nat) :
    UnifiedCache :=
  match (s.nodes oldNode).bind UnifiedTreeNode.writeThroughPendingId with
  | none => s
  | some ackId =>
    match s.ongoingWriteThrough ackId with
    | none => s
    | some pending =>
      if oldNode ∈ pending.publishNodes then
        let s := newNodes.foldl (fun s i => s.modifyNode i (setPendingId ackId)) s
        { s with
          ongoingWriteThrough := Function.update s.ongoingWriteThrough ackId
            (some { pending with
              publishNodes :=
                pending.publishNodes.flatMap fun i => if i = oldNode then newNodes else [i] }) }
      else s

/-- `redistribute_on_node_split` of a component: the data of the new parent and of the child. -/
def redistribute (ct : ComponentType) (splitLen : Nat) (cd : ComponentData) :
    ComponentData × ComponentData :=
  match ct with
  | .full =>
    ({ lockRef := cd.lockRef, value := cd.value.map (·.take splitLen), hostValue :=
      cd.hostValue.map (·.take splitLen) },
        { cd with value := cd.value.map (·.drop splitLen), hostValue :=
          cd.hostValue.map (·.drop splitLen) })
  | .swa =>
    ({ lockRef := cd.lockRef, value := cd.value.map (·.take splitLen), hostValue :=
      cd.hostValue.map (·.take splitLen),
       uuid := cd.uuid },
      { cd with
        value := cd.value.map (·.drop splitLen), hostValue := cd.hostValue.map (·.drop splitLen),
          uuid := none })
  | .mamba => ({}, cd)

/-- The host list of the SWA component in `redistribute_on_node_split`. -/
def redistributeHostLru (cfg : UnifiedConfig) (cd : ComponentData) (newParent child : Nat)
    (lru : List Nat) :
    Option (List Nat) :=
  if .swa ∈ cfg.treeComponents ∧ cd.hostValue.isSome ∧ cd.value.isNone then do
    let lru ← insertMru lru newParent
    if child ∈ lru then some lru else insertMru lru child
  else some lru

/-- The data of the two halves of a node; a component that is not enabled has none. -/
def splitData (cfg : UnifiedConfig) (c : UnifiedTreeNode) (splitLen : Nat) (ct : ComponentType) :
    ComponentData × ComponentData :=
  if ct ∈ cfg.treeComponents then
    redistribute ct (c.key.takeUnits splitLen).len (c.componentData ct)
  else ({}, c.componentData ct)

/-- The new node of `_split_node`, which takes the first `splitLen` units. -/
def frontHalf (cfg : UnifiedConfig) (c : UnifiedTreeNode) (key : RadixKey)
    (child splitLen now : Nat) :
    UnifiedTreeNode where
  parent := c.parent
  children := AList.singleton ((key.dropUnits splitLen).childKey cfg.pageSize) child
  key := c.key.takeUnits splitLen
  componentData := fun ct => (splitData cfg c splitLen ct).1
  lastAccessTime := now
  creationTime := c.creationTime
  hashValue := (splitNodeHashValue c.hashValue splitLen cfg.pageSize).1
  hitCount := c.hitCount
  priority := c.priority

/-- What `_split_node` leaves of the child. -/
def backHalf (cfg : UnifiedConfig) (c : UnifiedTreeNode) (newNode splitLen : Nat) :
    UnifiedTreeNode :=
  { c with
    parent := some newNode
    key := c.key.dropUnits splitLen
    componentData := fun ct => (splitData cfg c splitLen ct).2
    hashValue := (splitNodeHashValue c.hashValue splitLen cfg.pageSize).2 }

/-- The end of `_split_node`: the device lists, the time of the child and the leaf sets. -/
def relist (cfg : UnifiedConfig) (s : UnifiedCache) (newNode child : Nat) :
    Option UnifiedCache := do
  let s ← s.forEachComponentLru cfg newNode insertMru true
  let s ← s.forEachComponentLru cfg child insertMru true
  let now := s.timeCounter
  let s := s.modifyNode child fun n => { n with lastAccessTime := now }
  some (({ s with timeCounter := now + 1 }.updateEvictableLeafSets newNode).updateEvictableLeafSets
    child)

/-- `_split_node`: a new node takes the first `splitLen` units of `child`. -/
def splitNode (cfg : UnifiedConfig) (s : UnifiedCache) (key : RadixKey) (child : Nat)
    (splitLen : Nat) :
    Option (UnifiedCache × Nat) := do
  let c ← s.nodes child
  let p ← c.parent
  let pn ← s.nodes p
  let newNode := s.counter
  let s ← s.forEachComponentLru cfg child removeNode false
  let swaHostLru ← redistributeHostLru cfg (c.componentData .swa) newNode child
    (s.hostLruLists .swa)
  let back := backHalf cfg c newNode splitLen
  let s : UnifiedCache := { s with
    counter := newNode + 1
    timeCounter := s.timeCounter + 2
    hostLruLists := Function.update s.hostLruLists .swa swaHostLru
    nodes := Function.update
      (Function.update
        (Function.update s.nodes newNode (some (frontHalf cfg c key child splitLen s.timeCounter)))
        child (some back)) p
      (some { pn with children := pn.children.insert (key.childKey cfg.pageSize) newNode }) }
  let s := if back.backuped then s.replacePendingWriteThroughNode child [newNode, child] else s
  let s ← s.relist cfg newNode child
  some (s, newNode)

/-! ## Section 4: What a cut does -/

def view (s : UnifiedCache) (i : Nat) : Option HostView := (s.nodes i).map UnifiedTreeNode.hostView

/-- A node with a device value for a component is in the list of the component. -/
def LruOk (cfg : UnifiedConfig) (s : UnifiedCache) : Prop :=
  ∀ ct ∈ cfg.treeComponents, ct ≠ .full → ∀ i n, s.nodes i = some n →
    (n.componentData ct).value.isSome → i ∈ s.lruLists ct

variable {cfg : UnifiedConfig} {s : UnifiedCache}

theorem view_at {i : Nat} {n : UnifiedTreeNode} (h : s.nodes i = some n) :
    s.view i = some n.hostView := by
  rw [view, h]
  rfl

@[simp] theorem view_updateEvictableLeafSets (s : UnifiedCache) (node : Nat) :
    (s.updateEvictableLeafSets node).view = s.view := by
  unfold updateEvictableLeafSets
  split <;> rfl

@[simp] theorem counter_updateEvictableLeafSets (s : UnifiedCache) (node : Nat) :
    (s.updateEvictableLeafSets node).counter = s.counter := by
  unfold updateEvictableLeafSets
  split <;> rfl

@[simp] theorem hostMemRelease_updateEvictableLeafSets (s : UnifiedCache) (node : Nat) :
    (s.updateEvictableLeafSets node).hostMemRelease = s.hostMemRelease := by
  unfold updateEvictableLeafSets
  split <;> rfl

@[simp] theorem nodes_updateEvictableLeafSets (s : UnifiedCache) (node : Nat) :
    (s.updateEvictableLeafSets node).nodes = s.nodes := by
  unfold updateEvictableLeafSets
  split <;> rfl

@[simp] theorem lruLists_updateEvictableLeafSets (s : UnifiedCache) (node : Nat) :
    (s.updateEvictableLeafSets node).lruLists = s.lruLists := by
  unfold updateEvictableLeafSets
  split <;> rfl

theorem view_modifyNode {f : UnifiedTreeNode → UnifiedTreeNode}
    (hf : ∀ n, (f n).hostView = n.hostView) (i : Nat) :
    (s.modifyNode i f).view = s.view := by
  funext j
  unfold view modifyNode
  dsimp only
  by_cases hj : j = i
  · subst hj
    rw [update_self, map_map]
    exact congrFun (congrArg Option.map (funext hf)) _
  · rw [update_of_ne hj]

theorem exists_removeAll (node : Nat) (n : UnifiedTreeNode) {cts : List ComponentType}
    (hnodup : cts.Nodup) :
    ∀ lruLists : ComponentType → List Nat,
      (∀ ct ∈ cts, ct ≠ .full → (n.componentData ct).value.isSome → node ∈ lruLists ct) →
      ∃ lruLists', cts.foldlM (componentLru removeNode false node n) lruLists = some lruLists' := by
  induction cts with
  | nil =>
    intro lruLists _
    exact ⟨lruLists, rfl⟩
  | cons ct cts ih =>
    intro lruLists hmem
    obtain ⟨hnot, hnodup⟩ := List.nodup_cons.mp hnodup
    -- the other components keep their lists
    have hstep : ∃ lists, componentLru removeNode false node n lruLists ct = some lists ∧
        ∀ ct' ∈ cts, lists ct' = lruLists ct' := by
      unfold componentLru
      by_cases hfull : ct = .full
      · rw [if_pos hfull]
        exact ⟨_, rfl, fun _ _ => rfl⟩
      · rw [if_neg hfull]
        by_cases hvalue : (n.componentData ct).value.isSome
        · have hin := hmem ct List.mem_cons_self hfull hvalue
          refine ⟨Function.update lruLists ct ((lruLists ct).erase node), ?_, ?_⟩
          · rw [if_pos hvalue, if_neg (by simp), removeNode, if_pos hin]
            rfl
          · intro ct' hct'
            apply update_of_ne
            rintro rfl
            exact hnot hct'
        · rw [if_neg hvalue]
          exact ⟨_, rfl, fun _ _ => rfl⟩
    obtain ⟨lists, hstep, hsame⟩ := hstep
    rw [List.foldlM_cons, hstep, bind_eq_bind, bind_some]
    apply ih hnodup
    intro ct' hct' hfull hvalue
    rw [hsame ct' hct']
    exact hmem ct' (List.mem_cons_of_mem _ hct') hfull hvalue

theorem exists_insertAll (node : Nat) (n : UnifiedTreeNode) (cts : List ComponentType) :
    ∀ lruLists : ComponentType → List Nat,
      ∃ lruLists', cts.foldlM (componentLru insertMru true node n) lruLists = some lruLists' := by
  induction cts with
  | nil => exact fun lruLists => ⟨lruLists, rfl⟩
  | cons ct cts ih =>
    intro lruLists
    have hstep : ∃ lists, componentLru insertMru true node n lruLists ct = some lists := by
      unfold componentLru
      by_cases hfull : ct = .full
      · exact ⟨_, if_pos hfull⟩
      · rw [if_neg hfull]
        by_cases hvalue : (n.componentData ct).value.isSome
        · rw [if_pos hvalue]
          by_cases hin : node ∈ lruLists ct
          · exact ⟨_, if_pos ⟨rfl, hin⟩⟩
          · rw [if_neg fun h => hin h.2, insertMru, if_neg hin]
            exact ⟨_, rfl⟩
        · exact ⟨_, if_neg hvalue⟩
    obtain ⟨lists, hstep⟩ := hstep
    rw [List.foldlM_cons, hstep]
    exact ih lists

theorem exists_removeLru (h : LruOk cfg s) {node : Nat} {n : UnifiedTreeNode}
    (hn : s.nodes node = some n) :
    ∃ lruLists, s.forEachComponentLru cfg node removeNode false = some { s with lruLists } := by
  obtain ⟨lruLists, heq⟩ := exists_removeAll node n cfg.components_nodup s.lruLists
    fun ct hct hfull hvalue => h ct hct hfull node n hn hvalue
  refine ⟨lruLists, ?_⟩
  unfold forEachComponentLru
  rw [hn, bind_eq_bind, bind_some, heq]
  rfl

theorem exists_insertLru (cfg : UnifiedConfig) {node : Nat} {n : UnifiedTreeNode}
    (hn : s.nodes node = some n) :
    ∃ lruLists, s.forEachComponentLru cfg node insertMru true = some { s with lruLists } := by
  obtain ⟨lruLists, heq⟩ := exists_insertAll node n cfg.treeComponents s.lruLists
  refine ⟨lruLists, ?_⟩
  unfold forEachComponentLru
  rw [hn, bind_eq_bind, bind_some, heq]
  rfl

theorem view_modifyAll {f : UnifiedTreeNode → UnifiedTreeNode}
    (hf : ∀ n, (f n).hostView = n.hostView) (l : List Nat) :
    ∀ s : UnifiedCache, (l.foldl (fun s i => s.modifyNode i f) s).view = s.view ∧
      (l.foldl (fun s i => s.modifyNode i f) s).hostMemRelease = s.hostMemRelease ∧
      (l.foldl (fun s i => s.modifyNode i f) s).counter = s.counter := by
  induction l with
  | nil => exact fun _ => ⟨rfl, rfl, rfl⟩
  | cons i l ih =>
    intro s
    obtain ⟨hview, hrelease, hcounter⟩ := ih (s.modifyNode i f)
    exact ⟨hview.trans (view_modifyNode hf i), hrelease, hcounter⟩

theorem view_replacePendingWriteThroughNode (s : UnifiedCache) (oldNode : Nat)
    (newNodes : List Nat) :
    (s.replacePendingWriteThroughNode oldNode newNodes).view = s.view ∧
      (s.replacePendingWriteThroughNode oldNode newNodes).hostMemRelease = s.hostMemRelease ∧
      (s.replacePendingWriteThroughNode oldNode newNodes).counter = s.counter := by
  unfold replacePendingWriteThroughNode
  split
  · exact ⟨rfl, rfl, rfl⟩
  · split
    · exact ⟨rfl, rfl, rfl⟩
    · split
      · next ackId _ _ _ _ _ =>
          exact view_modifyAll (f := setPendingId ackId) (fun _ => rfl) newNodes s
      · exact ⟨rfl, rfl, rfl⟩

theorem exists_node {i : Nat} {v : HostView} (h : s.view i = some v) : ∃ n, s.nodes i = some n ∧
    n.hostView = v :=
  map_eq_some_iff.mp h

theorem hostValue_redistribute (ct : ComponentType) (n : Nat) {cd : ComponentData}
    (h : cd.hostValue = none) :
    (redistribute ct n cd).1.hostValue = none ∧ (redistribute ct n cd).2.hostValue = none := by
  cases ct with
  | full => exact ⟨by rw [redistribute, h]; rfl, by rw [redistribute, h]; rfl⟩
  | swa => exact ⟨by rw [redistribute, h]; rfl, by rw [redistribute, h]; rfl⟩
  | mamba => exact ⟨rfl, h⟩

theorem exists_relist (cfg : UnifiedConfig) (s : UnifiedCache) (front back : Nat)
    (hfront : (s.view front).isSome) (hback : (s.view back).isSome) :
    ∃ s', s.relist cfg front back = some s' ∧ s'.view = s.view ∧
    s'.hostMemRelease = s.hostMemRelease ∧ s'.counter = s.counter := by
  obtain ⟨vf, hvf⟩ := isSome_iff_exists.mp hfront
  obtain ⟨vb, hvb⟩ := isSome_iff_exists.mp hback
  obtain ⟨nf, hnf, -⟩ := exists_node hvf
  obtain ⟨nb, hnb, -⟩ := exists_node hvb
  obtain ⟨lru, hlru⟩ := exists_insertLru cfg hnf
  obtain ⟨lru', hlru'⟩ := exists_insertLru (s := { s with lruLists := lru }) cfg hnb
  unfold relist
  rw [hlru, bind_eq_bind, bind_some, hlru', bind_some]
  refine ⟨_, rfl, ?_, ?_, ?_⟩
  · rw [view_updateEvictableLeafSets, view_updateEvictableLeafSets]
    exact view_modifyNode (s := s) (f := fun n => { n with lastAccessTime := s.timeCounter })
      (fun _ => rfl) back
  · rw [hostMemRelease_updateEvictableLeafSets, hostMemRelease_updateEvictableLeafSets]
    rfl
  · rw [counter_updateEvictableLeafSets, counter_updateEvictableLeafSets]
    rfl

theorem hostValue_splitData (cfg : UnifiedConfig) {c : UnifiedTreeNode} (splitLen : Nat)
    (h : (c.componentData .swa).hostValue = none) :
    (splitData cfg c splitLen .swa).1.hostValue = none ∧
    (splitData cfg c splitLen .swa).2.hostValue = none := by
  unfold splitData
  by_cases hswa : ComponentType.swa ∈ cfg.treeComponents
  · rw [if_pos hswa]
    exact hostValue_redistribute .swa _ h
  · rw [if_neg hswa]
    exact ⟨rfl, h⟩

theorem splitNode_spec (h : LruOk cfg s) {child p : Nat} {c pn : UnifiedTreeNode} (key : RadixKey)
    (splitLen : Nat) (hc : s.nodes child = some c) (hp : c.parent = some p)
    (hpn : s.nodes p = some pn)
    (hfresh : s.nodes s.counter = none) (hne : child ≠ p)
    (hhost : (c.componentData .swa).hostValue = none) :
    ∃ s', s.splitNode cfg key child splitLen = some (s', s.counter) ∧
      s'.view = Function.update
      (Function.update s.view s.counter (some ⟨some p, c.key.takeUnits splitLen, none⟩)) child
        (some ⟨some s.counter, c.key.dropUnits splitLen, none⟩) ∧
      s'.hostMemRelease = s.hostMemRelease ∧ s'.counter = s.counter + 1 := by
  obtain ⟨lru, hremove⟩ := exists_removeLru h hc
  have hswa : redistributeHostLru cfg (c.componentData .swa) s.counter child (s.hostLruLists .swa) =
      some (s.hostLruLists .swa) := by
    apply if_neg
    rintro ⟨-, hsome, -⟩
    rw [hhost] at hsome
    cases hsome
  have hdata := hostValue_splitData cfg splitLen hhost
  have hp' : p ≠ s.counter := by
    rintro rfl
    rw [hfresh] at hpn
    cases hpn
  -- the heap after the assignments
  obtain ⟨t, ht, hview, hrelease, hcounter⟩ : ∃ t : UnifiedCache, t = { s with
        lruLists := lru
        counter := s.counter + 1
        timeCounter := s.timeCounter + 2
        hostLruLists := Function.update s.hostLruLists .swa (s.hostLruLists .swa)
        nodes := Function.update (Function.update (Function.update s.nodes s.counter
            (some (frontHalf cfg c key child splitLen s.timeCounter))) child
            (some (backHalf cfg c s.counter splitLen))) p
          (some
            { pn with children := pn.children.insert (key.childKey cfg.pageSize) s.counter }) } ∧
      t.view = Function.update
      (Function.update s.view s.counter (some ⟨some p, c.key.takeUnits splitLen, none⟩)) child
        (some ⟨some s.counter, c.key.dropUnits splitLen, none⟩) ∧
      t.hostMemRelease = s.hostMemRelease ∧ t.counter = s.counter + 1 := by
    refine ⟨_, rfl, ?_, rfl, rfl⟩
    funext i
    unfold view
    dsimp only
    by_cases hip : i = p
    · subst hip
      rw [update_self, update_of_ne (Ne.symm hne), update_of_ne hp', hpn]
      rfl
    · rw [update_of_ne hip]
      by_cases hi : i = child
      · subst hi
        rw [update_self, update_self]
        exact congrArg (fun v => some (HostView.mk _ _ v)) hdata.2
      · rw [update_of_ne hi, update_of_ne hi]
        by_cases hnew : i = s.counter
        · subst hnew
          rw [update_self, update_self]
          show some (HostView.mk c.parent _ (splitData cfg c splitLen .swa).1.hostValue) = _
          rw [hdata.1, hp]
          rfl
        · rw [update_of_ne hnew, update_of_ne hnew]
  obtain ⟨u, hu, hview', hrelease', hcounter'⟩ : ∃ u : UnifiedCache,
      u = (if (backHalf cfg c s.counter splitLen).backuped then
        t.replacePendingWriteThroughNode child [s.counter, child] else t) ∧
      u.view = t.view ∧ u.hostMemRelease = t.hostMemRelease ∧ u.counter = t.counter := by
    refine ⟨_, rfl, ?_⟩
    split
    · exact view_replacePendingWriteThroughNode t child [s.counter, child]
    · exact ⟨rfl, rfl, rfl⟩
  have hchild : child ≠ s.counter := by
    rintro rfl
    rw [hfresh] at hc
    cases hc
  obtain ⟨s', hs', hview'', hrelease'', hcounter''⟩ := exists_relist cfg u s.counter child
    (by rw [hview', hview, update_of_ne hchild.symm, update_self]; rfl)
    (by rw [hview', hview, update_self]; rfl)
  refine ⟨s', ?_, hview''.trans (hview'.trans hview), hrelease''.trans (hrelease'.trans hrelease),
    hcounter''.trans (hcounter'.trans hcounter)⟩
  unfold splitNode
  simp only [hc, hp, hpn, hremove, hswa, bind_eq_bind, bind_some]
  rw [← ht, ← hu, hs', bind_some]

end UnifiedCache

end Sglang.MemCache.Unified
