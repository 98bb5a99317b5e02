import Mathlib
import Sglang.Gateway.TenantTreeEvict
import Sglang.Gateway.TenantTreeInsert
import Sglang.Gateway.TenantTreeMatch
import Sglang.Lib.Runs

/-!
# Runs of the Routing Tree

What the tree is for: each tenant has a set of texts, closed under beginnings. `Store` is this
abstract model, and every operation on the tree is one on the store.

A lookup in a tree without tenants makes up the tenant `empty`; at one epoch in eight it also
records its access, and from then on the root has a tenant that nobody inserted. `Guarded` leaves
out these lookups.

- `step_spec`: one operation on the tree and on the store,
- `treeOk_of_guarded`: the invariant of the tree in every state,
- `exact_of_guarded`: what the lookups return in every state.
-/

namespace Sglang.Gateway

open List
open Lib
open Lib.PageTrie

/-! ## Section 1: The abstract store -/

/-- The texts of each tenant, with their beginnings. -/
abbrev Store := String → Set (List Char)

/-- A call on the tree, with the orders and the epoch that it meets. -/
inductive TreeOp where
  | insert (epoch : Nat) (text : List Char) (tenant : String)
  | prefixMatchWithCounts (order : DashOrder) (epoch : Nat) (text : List Char)
  | prefixMatchTenant (epoch : Nat) (text : List Char) (tenant : String)
  | evictTenantBySize (order : DashOrder) (tie : List EvictionEntry → Nat) (maxSize : Nat)
  | removeTenant (order : DashOrder) (tenant : String)

def Store.Next (a : Store) : TreeOp → Store → Prop
  | .insert _ text tenant, a' => ∀ t w, w ∈ a' t ↔ w ∈ a t ∨ t = tenant ∧ w <+: text
  | .prefixMatchWithCounts .., a' => a' = a
  | .prefixMatchTenant .., a' => a' = a
  | .evictTenantBySize .., a' => ∀ t, a' t ⊆ a t
  | .removeTenant _ tenant, a' => ∀ t w, w ∈ a' t ↔ w ∈ a t ∧ t ≠ tenant

/-- What a run of calls may make of a store. -/
inductive Store.Becomes : Store → List TreeOp → Store → Prop
  | nil (a : Store) : Becomes a [] a
  | cons {a b c : Store} {op : TreeOp} {ops : List TreeOp} (next : a.Next op b)
      (rest : Becomes b ops c) : Becomes a (op :: ops) c

/-- The tenants that were inserted and not removed since. -/
def note (known : Finset String) : TreeOp → Finset String
  | .insert _ _ tenant => Insert.insert tenant known
  | .removeTenant _ tenant => known.erase tenant
  | _ => known

def known (ops : List TreeOp) : Finset String := ops.foldl note ∅

theorem Store.Next.known {a a' : Store} {op : TreeOp} (h : a.Next op a') {k : Finset String}
    (hk : ∀ t, (a t).Nonempty → t ∈ k) : ∀ t, (a' t).Nonempty → t ∈ note k op := by
  rintro t ⟨w, hw⟩
  cases op with
  | insert epoch text tenant =>
    rcases (h t w).mp hw with hold | ⟨rfl, _⟩
    · exact Finset.mem_insert_of_mem (hk t ⟨w, hold⟩)
    · exact Finset.mem_insert_self t k
  | prefixMatchWithCounts order epoch text =>
    obtain rfl : a' = a := h
    exact hk t ⟨w, hw⟩
  | prefixMatchTenant epoch text tenant =>
    obtain rfl : a' = a := h
    exact hk t ⟨w, hw⟩
  | evictTenantBySize order tie maxSize => exact hk t ⟨w, h t hw⟩
  | removeTenant order tenant =>
    obtain ⟨hold, hne⟩ := (h t w).mp hw
    exact Finset.mem_erase.mpr ⟨hne, hk t ⟨w, hold⟩⟩

namespace Tree

/-! ## Section 2: Steps -/

def step (s : Tree) : TreeOp → Option Tree
  | .insert epoch text tenant => s.insert epoch text tenant
  | .prefixMatchWithCounts order epoch text =>
    (s.prefixMatchWithCounts order epoch text).map Prod.fst
  | .prefixMatchTenant epoch text tenant => (s.prefixMatchTenant epoch text tenant).map Prod.fst
  | .evictTenantBySize order tie maxSize => s.evictTenantBySize order tie maxSize
  | .removeTenant order tenant => s.removeTenant order tenant

/-- A lookup for any tenant meets a tree with a tenant, or an epoch at which it records nothing. -/
def Guarded (s : Tree) : TreeOp → Prop
  | .prefixMatchWithCounts _ epoch _ => (∃ t, s.HasTenant root t) ∨ epoch &&& 0x7 ≠ 0
  | _ => True

/-- The text from the root to the end of a node. -/
def textOf (s : Tree) (i : Nat) : List Char := spell root s.heap s.counter (labelOf s.heap) i

def stored (s : Tree) : Store := fun t => {w | ∃ i, s.HasTenant i t ∧ w <+: s.textOf i}

variable {s : Tree} {word : Nat → List Char}

theorem Shape.textOf_eq (h : s.Shape word) {i : Nat} {n : Node} (hi : s.nodes i = some n) :
    s.textOf i = word i := by
  have hbound : ∀ m c, s.heap m = some c → m < s.counter := by
    intro m c hc
    obtain ⟨n, hn, _⟩ := heap_some hc
    exact h.fresh hn
  exact h.trie.spells_unique (h.trie.spells_spell s.counter hbound _) h.trie.spells (heap_at hi)

theorem Shape.mem_stored (h : s.Shape word) {t : String} {w : List Char} :
    w ∈ s.stored t ↔ s.Holds word t w := by
  constructor
  · rintro ⟨i, hi, hw⟩
    obtain ⟨n, hn⟩ := hi.node
    exact ⟨i, hi, h.textOf_eq hn ▸ hw⟩
  · rintro ⟨i, hi, hw⟩
    obtain ⟨n, hn⟩ := hi.node
    refine ⟨i, hi, ?_⟩
    rw [h.textOf_eq hn]
    exact hw

theorem stored_eq {s' : Tree} (h : s.Shape word) (h' : s'.Shape word)
    (hsame : ∀ j t, s'.HasTenant j t ↔ s.HasTenant j t) : s'.stored = s.stored := by
  funext t
  ext w
  rw [h.mem_stored, h'.mem_stored]
  simp only [Holds, hsame]

/-- A guarded call returns, keeps the invariant and acts on the store. -/
theorem step_spec (h : s.Inv word) {op : TreeOp} (hguard : s.Guarded op) :
    ∃ s' word', s.step op = some s' ∧ s'.Inv word' ∧ s.stored.Next op s'.stored := by
  cases op with
  | insert epoch text tenant =>
    obtain ⟨s', word', heq, hinv, hholds⟩ := insert_spec h epoch text tenant
    refine ⟨s', word', heq, hinv, fun t w => ?_⟩
    rw [h.shape.mem_stored, hinv.shape.mem_stored, hholds]
  | prefixMatchWithCounts order epoch text =>
    obtain ⟨s', r, heq, _, _, hkeep⟩ := prefixMatchWithCounts_spec h order epoch text
    obtain ⟨hinv, hsame⟩ := hkeep hguard
    exact ⟨s', word, by simp [step, heq], hinv, stored_eq h.shape hinv.shape hsame⟩
  | prefixMatchTenant epoch text tenant =>
    obtain ⟨s', heq, hinv, hsame⟩ := prefixMatchTenant_spec h epoch text tenant
    exact ⟨s', word, by simp [step, heq], hinv, stored_eq h.shape hinv.shape hsame⟩
  | evictTenantBySize order tie maxSize =>
    obtain ⟨s', heq, hinv, hshrink, _⟩ := evictTenantBySize_spec h order tie maxSize
    refine ⟨s', word, heq, hinv, fun t w hw => ?_⟩
    obtain ⟨i, hi, hpre⟩ := hinv.shape.mem_stored.mp hw
    exact h.shape.mem_stored.mpr ⟨i, hshrink i t hi, hpre⟩
  | removeTenant order tenant =>
    obtain ⟨s', heq, hinv, htenants⟩ := removeTenant_spec h order tenant
    refine ⟨s', word, heq, hinv, fun t w => ?_⟩
    rw [h.shape.mem_stored, hinv.shape.mem_stored]
    simp only [Holds, htenants]
    tauto

/-! ## Section 3: Runs -/

/-- The invariant of a run: the tree, and the tenants it may name. -/
structure RunInv (s : Tree) (k : Finset String) : Prop where
  tree : ∃ word, s.Inv word
  named : ∀ t, (s.stored t).Nonempty → t ∈ k

theorem new_inv : new.Inv fun _ => [] := by
  have hother : ∀ i, i ≠ root → new.nodes i = none := fun i hi => by simp [new, hi]
  have hroot : new.nodes root = some ⟨∅, .empty, ∅, none, none⟩ := by simp [new]
  have hheap : ∀ i c, new.heap i = some c →
      i = root ∧ c = (⟨none, [], fun _ => none⟩ : Cell Char Char) := by
    intro i c hc
    obtain ⟨n, hn, rfl⟩ := heap_some hc
    by_cases hi : i = root
    · rw [hi, hroot] at hn
      cases hn
      exact ⟨hi, rfl⟩
    · rw [hother i hi] at hn
      cases hn
  have hnone : ∀ i t, ¬ new.HasTenant i t := by
    rintro i t ⟨n, hn, ht⟩
    by_cases hi : i = root
    · rw [hi, hroot] at hn
      cases hn
      exact Finmap.notMem_empty ht
    · rw [hother i hi] at hn
      cases hn
  refine ⟨⟨?_, ?_⟩, tenanted_of ?_ ?_, ?_⟩
  · refine
      { page_pos := Nat.one_pos
        root_cell := ⟨_, heap_at hroot, rfl, rfl⟩
        spells := ⟨rfl, ?_⟩
        filed := ?_
        label_ne := ?_
        label_dvd := fun _ => one_dvd _
        child_cell := ?_ }
    · intro i c p hc hp
      obtain ⟨rfl, rfl⟩ := hheap i c hc
      cases hp
    · exact fun hc hne => absurd (hheap _ _ hc).1 hne
    · exact fun hc hne => absurd (hheap _ _ hc).1 hne
    · intro p pc k i hc hchild
      obtain ⟨rfl, rfl⟩ := hheap p pc hc
      cases hchild
  · intro i n hi
    obtain ⟨rfl, _⟩ := hheap i n.cell (heap_at hi)
    exact Nat.one_pos
  · exact fun _ _ ht => absurd ht (hnone _ _)
  · exact fun hc hne => absurd (hheap _ _ hc).1 hne
  · exact fun t => ⟨fun hroot => absurd hroot (hnone _ _), fun _ => Finmap.lookup_empty t⟩

theorem new_runInv : new.RunInv ∅ := by
  refine ⟨⟨_, new_inv⟩, ?_⟩
  rintro t ⟨w, i, ⟨n, hn, ht⟩, _⟩
  by_cases hi : i = root
  · simp only [hi, new, Function.update_self, Option.some.injEq] at hn
    subst hn
    exact absurd ht Finmap.notMem_empty
  · simp [new, hi] at hn

theorem RunInv.step {k : Finset String} (h : s.RunInv k) {op : TreeOp} (hguard : s.Guarded op) :
    ∃ s', s.step op = some s' ∧ s.stored.Next op s'.stored ∧ s'.RunInv (note k op) := by
  obtain ⟨word, hinv⟩ := h.tree
  obtain ⟨s', word', heq, hinv', hnext⟩ := step_spec hinv hguard
  exact ⟨s', heq, hnext, ⟨word', hinv'⟩, hnext.known h.named⟩

theorem RunInv.run : ∀ (ops : List TreeOp) {s : Tree} {k : Finset String}, s.RunInv k →
    Along Tree.step Guarded s ops →
    ∃ s', Lib.run Tree.step s ops = some s' ∧ s.stored.Becomes ops s'.stored ∧
      s'.RunInv (ops.foldl note k) := by
  intro ops
  induction ops with
  | nil => exact fun {s _} h _ => ⟨s, rfl, .nil s.stored, h⟩
  | cons op ops ih =>
    intro s k h hguards
    obtain ⟨s₁, heq, hnext, h₁⟩ := h.step hguards.1
    have hrest := hguards.2
    rw [heq] at hrest
    obtain ⟨s', hrun, hbecomes, h'⟩ := ih h₁ hrest
    refine ⟨s', ?_, .cons hnext hbecomes, h'⟩
    rw [Lib.run, heq]
    exact hrun

/-! ## Section 4: The tree in every state -/

/-- What the code relies on in a tree, for the tenants that were inserted and not removed. -/
structure TreeOk (s : Tree) (k : Finset String) : Prop where
  filed : ∀ {i n}, s.nodes i = some n → i ≠ root → ∃ p pn c, n.parent = some p ∧
    s.nodes p = some pn ∧ n.text.text.head? = some c ∧ pn.children.lookup c = some i
  child : ∀ {p pn c i}, s.nodes p = some pn → pn.children.lookup c = some i →
    ∃ n, s.nodes i = some n ∧ n.parent = some p ∧ n.text.text.head? = some c
  subset : ∀ {i n p pn t}, s.nodes i = some n → n.parent = some p → s.nodes p = some pn →
    t ∈ n.tenantLastAccessTime → t ∈ pn.tenantLastAccessTime
  held : ∀ {i n}, s.nodes i = some n → i ≠ root → ∃ t, t ∈ n.tenantLastAccessTime
  counts : ∀ order, s.getUsedSizePerTenant order = s.tenantCharCount
  named : ∀ {i n t}, s.nodes i = some n → t ∈ n.tenantLastAccessTime → t ∈ k
  limited : ∀ order tie maxSize, ∃ s', s.evictTenantBySize order tie maxSize = some s' ∧
    ∀ t used, s'.tenantCharCount.lookup t = some used → used ≤ maxSize

theorem RunInv.treeOk {k : Finset String} (h : s.RunInv k) : s.TreeOk k := by
  obtain ⟨word, hinv⟩ := h.tree
  constructor
  · intro i n hi hroot
    obtain ⟨p, pn, hp, hpn, hfile⟩ := hinv.shape.parent hi hroot
    obtain ⟨n', hn', _, hhead⟩ := hinv.shape.child hpn hfile
    rw [hi] at hn'
    cases hn'
    exact ⟨p, pn, _, hp, hpn, hhead, hfile⟩
  · exact fun hp hc => hinv.shape.child hp hc
  · intro i n p pn t hi hp hpn ht
    exact (hasTenant_iff hpn t).mp (hinv.tenanted.below hi hp ht)
  · exact hinv.tenanted.held
  · exact getUsedSizePerTenant_eq hinv
  · intro i n t hi ht
    exact h.named t ⟨[], i, ⟨n, hi, ht⟩, nil_prefix⟩
  · intro order tie maxSize
    obtain ⟨s', heq, _, _, hlimit⟩ := evictTenantBySize_spec hinv order tie maxSize
    exact ⟨s', heq, hlimit⟩

/-- The invariant of the tree in every state of a guarded run. -/
theorem treeOk_of_guarded (ops : List TreeOp) (h : Along step Guarded new ops) :
    ∃ s, run step new ops = some s ∧ s.TreeOk (known ops) := by
  obtain ⟨s, hrun, _, hinv⟩ := RunInv.run ops new_runInv h
  exact ⟨s, hrun, hinv.treeOk⟩

/-- Maps are iterated in the order of their keys. -/
def sortedOrder : DashOrder where
  tenants := ⟨fun s => s.sort (· ≤ ·), fun s => s.sort_nodup _, fun s _ => s.mem_sort _⟩
  children := ⟨fun s => s.sort (· ≤ ·), fun s => s.sort_nodup _, fun s _ => s.mem_sort _⟩

theorem along_guarded (ops : List TreeOp) (h : ∀ op ∈ ops, ∀ s : Tree, s.Guarded op) :
    ∀ s : Tree, Along step Guarded s ops := by
  induction ops with
  | nil => exact fun _ => trivial
  | cons op ops ih =>
    intro s
    refine ⟨h op (mem_cons_self ..) s, ?_⟩
    split
    · trivial
    · exact ih (fun op hop => h op (mem_cons_of_mem _ hop)) _

/-- Two tenants share a prefix, one is looked up, evicted and removed. -/
def sharedRun : List TreeOp :=
  [.insert 1 "abc".toList "u", .insert 2 "abd".toList "v",
    .prefixMatchWithCounts sortedOrder 3 "abx".toList, .prefixMatchTenant 4 "abd".toList "v",
    .evictTenantBySize sortedOrder (fun _ => 0) 2, .removeTenant sortedOrder "u"]

theorem sharedRun_guarded : Along step Guarded new sharedRun := by
  apply along_guarded
  intro op hop s
  simp only [sharedRun, mem_cons, not_mem_nil, or_false] at hop
  rcases hop with rfl | rfl | rfl | rfl | rfl | rfl
  · trivial
  · trivial
  · exact .inr (by decide)
  · trivial
  · trivial
  · trivial

theorem sharedRun_treeOk :
    ∃ s, run step new sharedRun = some s ∧ s.TreeOk (known sharedRun) :=
  treeOk_of_guarded sharedRun sharedRun_guarded

/-- A lookup in the empty tree that records an access. -/
def emptyLookup : TreeOp := .prefixMatchWithCounts sortedOrder 0 []

theorem list_empty {α : Type} (o : IterOrder α) : o.list ∅ = [] := by
  rw [eq_nil_iff_forall_not_mem]
  intro x hx
  exact absurd ((o.mem ∅ x).mp hx) (Finset.notMem_empty x)

theorem step_emptyLookup : new.step emptyLookup = some (new.setNode root
    ⟨∅, .empty, (∅ : Finmap fun _ : String => Nat).insert "empty" 0, none, some "empty"⟩) := by
  simp [step, emptyLookup, prefixMatchWithCounts, matchLoop, new, pickTenant, list_empty,
    Node.access]

/-- The root has a tenant that was never inserted. -/
theorem emptyLookup_not_treeOk :
    ¬ ∀ ops s, run step new ops = some s → s.TreeOk (known ops) := by
  intro hall
  have hok := hall [emptyLookup] _ (by simp only [run, step_emptyLookup]; rfl)
  have hroot : (new.setNode root ⟨∅, .empty, (∅ : Finmap fun _ : String => Nat).insert "empty" 0,
      none, some "empty"⟩).nodes root = some ⟨∅, .empty,
        (∅ : Finmap fun _ : String => Nat).insert "empty" 0, none, some "empty"⟩ := by
    simp [setNode]
  have hnamed := hok.named hroot (t := "empty") (by simp [Finmap.mem_insert])
  exact absurd hnamed (Finset.notMem_empty _)

/-! ## Section 5: The lookups in every state -/

/-- What the lookups return, for the tenants that were inserted and not removed. -/
structure Exact (s : Tree) (k : Finset String) : Prop where
  withCounts : ∀ order epoch text, ∃ s' r,
    s.prefixMatchWithCounts order epoch text = some (s', r) ∧
      r.matchedCharCount = longestShared {w | ∃ t ∈ k, w ∈ s.stored t} text ∧
      ((∃ t ∈ k, (s.stored t).Nonempty) →
        r.tenant ∈ k ∧ text.take r.matchedCharCount ∈ s.stored r.tenant)
  ofTenant : ∀ epoch text tenant, ∃ s', s.prefixMatchTenant epoch text tenant =
    some (s', text.take (longestShared {w | tenant ∈ k ∧ w ∈ s.stored tenant} text))

theorem RunInv.exact {k : Finset String} (h : s.RunInv k) : s.Exact k := by
  obtain ⟨word, hinv⟩ := h.tree
  constructor
  · intro order epoch text
    obtain ⟨s', r, heq, hcount, htenant, _⟩ := prefixMatchWithCounts_spec hinv order epoch text
    refine ⟨s', r, heq, ?_, ?_⟩
    · rw [hcount]
      congr 1
      ext w
      constructor
      · rintro ⟨t, hw⟩
        have hw := hinv.shape.mem_stored.mpr hw
        exact ⟨t, h.named t ⟨w, hw⟩, hw⟩
      · rintro ⟨t, _, hw⟩
        exact ⟨t, hinv.shape.mem_stored.mp hw⟩
    · rintro ⟨t, _, w, hw⟩
      obtain ⟨i, hi, _⟩ := hinv.shape.mem_stored.mp hw
      have hmem := hinv.shape.mem_stored.mpr
        (htenant ⟨t, hinv.tenanted.root_has hinv.shape hi⟩)
      exact ⟨h.named _ ⟨_, hmem⟩, hmem⟩
  · intro epoch text tenant
    obtain ⟨s', heq, _⟩ := prefixMatchTenant_spec hinv epoch text tenant
    refine ⟨s', heq.trans ?_⟩
    congr 4
    ext w
    constructor
    · intro hw
      have hw := hinv.shape.mem_stored.mpr hw
      exact ⟨h.named _ ⟨w, hw⟩, hw⟩
    · exact fun hw => hinv.shape.mem_stored.mp hw.2

theorem stored_new : new.stored = fun _ => ∅ := by
  funext t
  rw [Set.eq_empty_iff_forall_notMem]
  intro w hw
  exact absurd (new_runInv.named t ⟨w, hw⟩) (Finset.notMem_empty t)

/-- What the lookups return in every state of a guarded run, and how the calls made what is stored
there. -/
theorem exact_of_guarded (ops : List TreeOp) (h : Along step Guarded new ops) :
    ∃ s, run step new ops = some s ∧ Store.Becomes (fun _ => ∅) ops s.stored ∧
    s.Exact (known ops) := by
  obtain ⟨s, hrun, hbecomes, hinv⟩ := RunInv.run ops new_runInv h
  rw [stored_new] at hbecomes
  exact ⟨s, hrun, hbecomes, hinv.exact⟩

theorem sharedRun_exact : ∃ s, run step new sharedRun = some s ∧
    Store.Becomes (fun _ => ∅) sharedRun s.stored ∧ s.Exact (known sharedRun) :=
  exact_of_guarded sharedRun sharedRun_guarded

/-- A text is inserted after such a lookup. -/
def lateInsert : TreeOp := .insert 1 ['a'] "t"

theorem run_lateInsert : ∃ s r, run step new [emptyLookup, lateInsert] = some s ∧
    s.nodes root = some r ∧ r.lastTenant = some "empty" ∧ "empty" ∈ r.tenantLastAccessTime ∧
      "t" ∈ r.tenantLastAccessTime := by
  simp only [run, step_emptyLookup, Option.bind_some]
  simp [lateInsert, step, insert, ensureTenant, setNode, insertLoop, addLeaf, addChars, new,
    Node.access, Finmap.mem_insert, root, Finmap.notMem_empty]

/-- A lookup that stops at the root returns a tenant that was never inserted. -/
theorem lateInsert_not_exact :
    ¬ ∀ ops s, run step new ops = some s → s.Exact (known ops) := by
  intro hall
  obtain ⟨s, r, hrun, hr, hlast, hempty, ht⟩ := run_lateInsert
  have hexact := hall _ s hrun
  have hknown : known [emptyLookup, lateInsert] = {"t"} := rfl
  rw [hknown] at hexact
  obtain ⟨s', res, heq, _, howner⟩ := hexact.withCounts sortedOrder 1 []
  have hres : res.tenant = "empty" := by
    simp [prefixMatchWithCounts, matchLoop, hr, pickTenant, hlast, hempty] at heq
    rw [← heq.2]
  obtain ⟨hin, _⟩ := howner ⟨"t", Finset.mem_singleton_self _, [], root, ⟨r, hr, ht⟩,
    nil_prefix⟩
  rw [hres] at hin
  exact absurd hin (by decide)

end Tree

end Sglang.Gateway
