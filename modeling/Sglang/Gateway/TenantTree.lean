import Mathlib.Data.Finmap
import Sglang.Gateway.CharSlices

/-!
# The Routing Tree of the Gateway

Model of `Tree` (`policies/tree.rs`): a radix tree over characters that many tenants share. Each
node has the tenants that inserted a text through it, with the epoch of their last access.

## Conventions

- Nodes live in an arena; an `Arc<Node>` is an id. A node leaves the arena when its parent drops it.
  Only entries of the eviction heap may still name it, and they find no tenant in it either way.
- A `DashMap` is a `Finmap`. Each call comes with the order in which it happens to iterate over
  them.
- Each call comes with the value of `get_epoch()` it reads.
- The calls are sequential.
- `none` is a panic, or a loop that has not ended.
-/

namespace Sglang.Gateway

open Function

/-- The order in which a call iterates over the keys of a map. -/
structure IterOrder (α : Type) where
  list : Finset α → List α
  nodup : ∀ s, (list s).Nodup
  mem : ∀ s x, x ∈ list s ↔ x ∈ s

/-- The orders of one call. -/
structure DashOrder where
  tenants : IterOrder String
  children : IterOrder Char

/-! ## Section 1: Nodes -/

structure Node where
  children : Finmap fun _ : Char => Nat
  text : NodeText
  tenantLastAccessTime : Finmap fun _ : String => Nat
  parent : Option Nat
  lastTenant : Option String

def Node.access (n : Node) (tenant : String) (epoch : Nat) : Node :=
  { n with tenantLastAccessTime := n.tenantLastAccessTime.insert tenant epoch }

/-- `Tree`, with the arena of its nodes. -/
structure Tree where
  nodes : Nat → Option Node
  /-- The next free id -/
  counter : Nat
  tenantCharCount : Finmap fun _ : String => Nat

structure PrefixMatchResult where
  tenant : String
  matchedCharCount : Nat
  inputCharCount : Nat
deriving DecidableEq

structure EvictionEntry where
  timestamp : Nat
  tenant : String
  node : Nat
deriving DecidableEq

namespace Tree

def root : Nat := 0

def new : Tree where
  nodes := update (fun _ => none) root (some ⟨∅, .empty, ∅, none, none⟩)
  counter := 1
  tenantCharCount := ∅

def setNode (s : Tree) (i : Nat) (n : Node) : Tree :=
  { s with nodes := update s.nodes i (some n) }

/-- `entry(tenant).and_modify(|count| *count += n).or_insert(n)`. -/
def addChars (s : Tree) (tenant : String) (n : Nat) : Tree :=
  { s with
    tenantCharCount :=
      s.tenantCharCount.insert tenant ((s.tenantCharCount.lookup tenant).getD 0 + n) }

/-! ## Section 2: Insertion -/

/-- The vacant entry: a leaf with the rest of the text. -/
def addLeaf (s : Tree) (prev : Nat) (p : Node) (firstChar : Char) (remaining : List Char)
    (tenant : String) (epoch : Nat) : Tree :=
  let leaf : Node :=
    { children := ∅, text := .new remaining, tenantLastAccessTime := ∅, parent := some prev
      lastTenant := some tenant }
  let s := s.addChars tenant remaining.length
  let x := s.counter
  { s with
    nodes := update (update s.nodes x (some (leaf.access tenant epoch))) prev
      (some { p with children := p.children.insert firstChar x })
    counter := x + 1 }

/-- The occupied entry whose text is shared in part: a new node takes the shared characters. -/
def splitNode (s : Tree) (prev : Nat) (p : Node) (firstChar : Char) (m : Nat) (matched : Node)
    (sharedCount : Nat) : Option Tree := do
  let (matchedText, contractedText) := matched.text.splitAtChar sharedCount
  let firstNewChar ← contractedText.firstChar
  let x := s.counter
  let front : Node :=
    { children := Finmap.singleton firstNewChar m, text := matchedText
      tenantLastAccessTime := matched.tenantLastAccessTime, parent := some prev
      lastTenant := matched.lastTenant }
  some { s with
    nodes := update
      (update (update s.nodes x (some front)) m
        (some { matched with text := contractedText, parent := some x })) prev
      (some { p with children := p.children.insert firstChar x })
    counter := x + 1 }

/-- Ensure that the tenant exists at a node on the way. -/
def attach (s : Tree) (tenant : String) (i : Nat) : Option Tree := do
  let n ← s.nodes i
  if tenant ∈ n.tenantLastAccessTime then some s
  else some ((s.addChars tenant n.text.charCount).setNode i (n.access tenant 0))

/-- The loop of `insert`. -/
def insertLoop (tenant : String) (epoch : Nat) : Nat → Tree → Nat → List Char → Option Tree
  | 0, _, _, _ => none
  | _ + 1, s, prev, [] => do
    let p ← s.nodes prev
    some (s.setNode prev (p.access tenant epoch))
  | fuel + 1, s, prev, firstChar :: rest => do
    let remaining := firstChar :: rest
    let p ← s.nodes prev
    match p.children.lookup firstChar with
    | none => some (s.addLeaf prev p firstChar remaining tenant epoch)
    | some m =>
      let matched ← s.nodes m
      let sharedCount := sharedPrefixCount remaining matched.text.text
      if sharedCount < matched.text.charCount then
        let x := s.counter
        let s ← s.splitNode prev p firstChar m matched sharedCount
        let s ← s.attach tenant x
        insertLoop tenant epoch fuel s x (← advanceByChars remaining sharedCount)
      else
        let s ← s.attach tenant m
        insertLoop tenant epoch fuel s m (← advanceByChars remaining sharedCount)

/-- Ensure that the tenant exists at the root and in `tenant_char_count`. -/
def ensureTenant (s : Tree) (tenant : String) : Option Tree := do
  let r ← s.nodes root
  let s := if tenant ∈ r.tenantLastAccessTime then s else s.setNode root (r.access tenant 0)
  some (if tenant ∈ s.tenantCharCount then s
    else { s with tenantCharCount := s.tenantCharCount.insert tenant 0 })

def insert (s : Tree) (epoch : Nat) (text : List Char) (tenant : String) : Option Tree := do
  let s ← s.ensureTenant tenant
  insertLoop tenant epoch (text.length + 1) s root text

/-! ## Section 3: Lookups -/

/-- The loop of both lookups; `prefix_match_tenant` enters only nodes of its tenant. -/
def matchLoop (s : Tree) (enters : Node → Bool) : Nat → Nat → List Char → Nat → Option (Nat × Nat)
  | 0, _, _, _ => none
  | _ + 1, prev, [], matchedChars => some (prev, matchedChars)
  | fuel + 1, prev, firstChar :: rest, matchedChars => do
    let remaining := firstChar :: rest
    let p ← s.nodes prev
    match p.children.lookup firstChar with
    | none => some (prev, matchedChars)
    | some m =>
      let matched ← s.nodes m
      if enters matched then
        let sharedCount := sharedPrefixCount remaining matched.text.text
        if sharedCount = matched.text.charCount then
          matchLoop s enters fuel m (← advanceByChars remaining sharedCount)
            (matchedChars + sharedCount)
        else some (m, matchedChars + sharedCount)
      else some (prev, matchedChars)

/-- The tenant of the node where a lookup stopped: the cached one if it is still there, else the
first one, which is cached. -/
def pickTenant (order : DashOrder) (n : Node) : String × Node :=
  let first := (order.tenants.list n.tenantLastAccessTime.keys).head?.getD "empty"
  match n.lastTenant with
  | some t =>
    if t ∈ n.tenantLastAccessTime then (t, n) else (first, { n with lastTenant := some first })
  | none => (first, { n with lastTenant := some first })

def prefixMatchWithCounts (s : Tree) (order : DashOrder) (epoch : Nat) (text : List Char) :
    Option (Tree × PrefixMatchResult) := do
  let (curr, matchedChars) ← s.matchLoop (fun _ => true) (text.length + 1) root text 0
  let n ← s.nodes curr
  let (tenant, n) := pickTenant order n
  let n := if epoch &&& 0x7 = 0 then n.access tenant epoch else n
  some (s.setNode curr n, ⟨tenant, matchedChars, text.length⟩)

def prefixMatchTenant (s : Tree) (epoch : Nat) (text : List Char) (tenant : String) :
    Option (Tree × List Char) := do
  let (curr, matchedChars) ← s.matchLoop (fun n => decide (tenant ∈ n.tenantLastAccessTime))
    (text.length + 1) root text 0
  let n ← s.nodes curr
  let s := if tenant ∈ n.tenantLastAccessTime then s.setNode curr (n.access tenant epoch) else s
  some (s, ← takeChars text matchedChars)

/-! ## Section 4: Traversal -/

/-- The children of a node, in the order of a call. -/
def childList (s : Tree) (order : DashOrder) (i : Nat) : List Nat :=
  match s.nodes i with
  | none => []
  | some n => (order.children.list n.children.keys).filterMap fun c => n.children.lookup c

/-- The loop `while let Some(curr) = stack.pop()`: the ids in the order they are popped. The top of
the stack is the head of the list. -/
def visit (s : Tree) (order : DashOrder) : Nat → List Nat → List Nat
  | 0, _ => []
  | _ + 1, [] => []
  | fuel + 1, curr :: stack =>
    curr :: visit s order fuel ((s.childList order curr).reverse ++ stack)

def visited (s : Tree) (order : DashOrder) : List Nat := s.visit order (s.counter + 1) [root]

/-- `node.children.iter().any(|child| child.tenant_last_access_time.contains_key(tenant))`. -/
def ChildHas (s : Tree) (n : Node) (tenant : String) : Prop :=
  ∃ c ∈ n.children.keys, ((n.children.lookup c).bind s.nodes).any fun child =>
    decide (tenant ∈ child.tenantLastAccessTime)

instance (s : Tree) (n : Node) (tenant : String) : Decidable (s.ChildHas n tenant) :=
  inferInstanceAs (Decidable (∃ c ∈ n.children.keys, _))

def leafOf (s : Tree) (order : DashOrder) (n : Node) : List String :=
  order.tenants.list (n.tenantLastAccessTime.keys.filter fun t => ¬ s.ChildHas n t)

def getUsedSizePerTenant (s : Tree) (order : DashOrder) : Finmap fun _ : String => Nat :=
  (s.visited order).foldl (fun sizes i =>
    match s.nodes i with
    | none => sizes
    | some n => (order.tenants.list n.tenantLastAccessTime.keys).foldl (fun sizes t =>
        sizes.insert t ((sizes.lookup t).getD 0 + n.text.charCount)) sizes) ∅

/-! ## Section 5: Eviction and Removal -/

/-- Remove a tenant from a node, and the node from its parent if nothing is left of it. -/
def dropTenant (s : Tree) (i : Nat) (n : Node) (tenant : String) : Tree :=
  let n := { n with tenantLastAccessTime := n.tenantLastAccessTime.erase tenant }
  let s := s.setNode i n
  if n.children = ∅ ∧ n.tenantLastAccessTime = ∅ then
    match n.parent, n.text.firstChar with
    | some p, some fc =>
      match s.nodes p with
      | none => s
      | some pn =>
        { s with
          nodes := update
            (update s.nodes p (some { pn with children := pn.children.erase fc })) i none }
    | _, _ => s
  else s

/-- The parent of a node, if it has become a leaf of the tenant, with its timestamp. -/
def newLeaf (s : Tree) (parent : Option Nat) (tenant : String) : Option (Nat × Nat) := do
  let p ← parent
  let pn ← s.nodes p
  let timestamp ← pn.tenantLastAccessTime.lookup tenant
  if s.ChildHas pn tenant then none else some (p, timestamp)

/-- `pq.pop()`: an entry with the least timestamp. `tie` picks one of them. -/
def popMin (tie : List EvictionEntry → Nat) (pq : List EvictionEntry) :
    Option (EvictionEntry × List EvictionEntry) :=
  match pq with
  | [] => none
  | e :: es =>
    let least := es.foldl (fun m x => min m x.timestamp) e.timestamp
    let candidates := pq.filter fun x => x.timestamp = least
    let x := (candidates[tie candidates % candidates.length]?).getD e
    some (x, pq.erase x)

/-- The heap that `evict_tenant_by_size` starts from. -/
def leafEntries (s : Tree) (order : DashOrder) : List EvictionEntry :=
  (s.visited order).flatMap fun i =>
    match s.nodes i with
    | none => []
    | some n => (s.leafOf order n).filterMap fun t =>
        (n.tenantLastAccessTime.lookup t).map fun timestamp => ⟨timestamp, t, i⟩

def Fits (s : Tree) (maxSize : Nat) (tenant : String) : Prop :=
  ∃ used ∈ s.tenantCharCount.lookup tenant, used ≤ maxSize

instance (s : Tree) (maxSize : Nat) (tenant : String) : Decidable (s.Fits maxSize tenant) :=
  match h : s.tenantCharCount.lookup tenant with
  | none => isFalse (by simp [Fits, h])
  | some used =>
    if hle : used ≤ maxSize then isTrue ⟨used, h, hle⟩
    else isFalse (by simpa [Fits, h] using hle)

/-- `entry(tenant).and_modify(|count| *count = count.saturating_sub(n))`. -/
def subChars (s : Tree) (tenant : String) (n : Nat) : Tree :=
  match s.tenantCharCount.lookup tenant with
  | none => s
  | some count => { s with tenantCharCount := s.tenantCharCount.insert tenant (count - n) }

/-- The loop of `evict_tenant_by_size`. -/
def evictLoop (tie : List EvictionEntry → Nat) (maxSize : Nat) :
    Nat → Tree → List EvictionEntry → Option Tree
  | 0, _, _ => none
  | fuel + 1, s, pq =>
    match popMin tie pq with
    | none => some s
    | some (e, pq) =>
      if s.Fits maxSize e.tenant then evictLoop tie maxSize fuel s pq
      else
        match s.nodes e.node with
        | none => evictLoop tie maxSize fuel s pq
        | some n =>
          if e.tenant ∈ n.tenantLastAccessTime ∧ ¬ s.ChildHas n e.tenant then
            let s := s.subChars e.tenant n.text.charCount
            let s := s.dropTenant e.node n e.tenant
            match s.newLeaf n.parent e.tenant with
            | none => evictLoop tie maxSize fuel s pq
            | some (p, timestamp) => evictLoop tie maxSize fuel s (⟨timestamp, e.tenant, p⟩ :: pq)
          else evictLoop tie maxSize fuel s pq

/-- The number of entries of all tenant maps: each eviction takes one. -/
def holdings (s : Tree) : Nat :=
  ((List.range s.counter).map fun i =>
    ((s.nodes i).map fun n => n.tenantLastAccessTime.keys.card).getD 0).sum

def evictTenantBySize (s : Tree) (order : DashOrder) (tie : List EvictionEntry → Nat)
    (maxSize : Nat) : Option Tree :=
  let pq := s.leafEntries order
  evictLoop tie maxSize (pq.length + s.holdings + 1) s pq

/-- The second loop of `remove_tenant`. -/
def removeLoop (tenant : String) : Nat → Tree → List Nat → Option Tree
  | 0, _, _ => none
  | _ + 1, s, [] => some s
  | fuel + 1, s, curr :: queue => do
    let n ← s.nodes curr
    let s := s.dropTenant curr n tenant
    match s.newLeaf n.parent tenant with
    | none => removeLoop tenant fuel s queue
    | some (p, _) => removeLoop tenant fuel s (queue ++ [p])

def tenantLeaves (s : Tree) (order : DashOrder) (tenant : String) : List Nat :=
  (s.visited order).filter fun i =>
    match s.nodes i with
    | none => false
    | some n => decide (tenant ∈ n.tenantLastAccessTime ∧ ¬ s.ChildHas n tenant)

def removeTenant (s : Tree) (order : DashOrder) (tenant : String) : Option Tree := do
  let s ← removeLoop tenant (s.counter + 1) s (s.tenantLeaves order tenant)
  some { s with tenantCharCount := s.tenantCharCount.erase tenant }

end Tree

end Sglang.Gateway
