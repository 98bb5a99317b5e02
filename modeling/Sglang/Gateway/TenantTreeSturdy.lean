import Mathlib
import Sglang.Gateway.TenantTreeRuns

/-!
# The Routing Tree Never Panics

A lookup in a tree without tenants may record an access of a tenant that nobody inserted, and the
accounts are off from then on. The nodes are not: every call on a tree whose nodes are in shape
returns such a tree. Only the eviction reads the accounts, and any accounts will do.

- `Sturdy`: the nodes are in shape,
- `Sturdy.audit`: then there are accounts that are right,
- `insert_withCounts`, `removeTenant_withCounts`: the accounts play no part in these calls,
- `sturdy_insert`, `sturdy_removeTenant`, `sturdy_prefixMatchWithCounts`,
  `sturdy_evictTenantBySize`: the calls return and leave the nodes in shape,
- `Ends`, `Offers`, `offers_iff`: where a lookup stops, and which tenants it may return there.
-/

namespace Sglang.Gateway

open List Option Function
open Lib
open Lib.PageTrie

namespace Tree

/-! ## Section 1: Other accounts -/

/-- The nodes form a trie whose tenants go up to the root. -/
def Sturdy (s : Tree) : Prop := ∃ word, s.Shape word ∧ s.Tenanted

def withCounts (s : Tree) (c : Finmap fun _ : String => Nat) : Tree :=
    { s with tenantCharCount := c }

theorem sturdy_new : new.Sturdy := ⟨_, new_inv.shape, new_inv.tenanted⟩

variable {s t : Tree} {word : Nat → List Char} {c : Finmap fun _ : String => Nat} {tenant : String}

theorem Inv.sturdy (h : (s.withCounts c).Inv word) : s.Sturdy :=
  ⟨word, ⟨h.shape.trie, h.shape.fresh⟩, ⟨h.tenanted.below, h.tenanted.held⟩⟩

theorem exists_finmap (keys : Finset String) (f : String → Nat) :
    ∃ m : Finmap fun _ : String => Nat, ∀ k, m.lookup k = if k ∈ keys then some
    (f k) else none := by
  induction keys using Finset.induction_on with
  | empty => exact ⟨∅, fun k => by rw [Finmap.lookup_empty, if_neg (Finset.notMem_empty k)]⟩
  | insert x keys _ ih =>
    obtain ⟨m, hm⟩ := ih
    refine ⟨m.insert x (f x), fun k => ?_⟩
    by_cases hk : k = x
    · subst hk
      rw [Finmap.lookup_insert, if_pos (Finset.mem_insert_self k keys)]
    · rw [Finmap.lookup_insert_of_ne _ hk, hm]
      simp only [Finset.mem_insert, hk, false_or]

theorem Sturdy.audit (h : s.Sturdy) : ∃ c word, (s.withCounts c).Inv word := by
  obtain ⟨word, hshape, htenanted⟩ := h
  obtain ⟨r, hr, _⟩ := hshape.root
  obtain ⟨c, hc⟩ := exists_finmap r.tenantLastAccessTime.keys s.used
  have hmem : ∀ t, (s.withCounts c).HasTenant root t ↔ t ∈ r.tenantLastAccessTime.keys := by
    intro t
    rw [Finmap.mem_keys]
    exact hasTenant_iff hr t
  refine ⟨c, word, ⟨hshape.trie, hshape.fresh⟩, ⟨htenanted.below, htenanted.held⟩,
    fun t => ⟨?_, ?_⟩⟩
  · intro ht
    exact (hc t).trans (if_pos ((hmem t).mp ht))
  · intro ht
    exact (hc t).trans (if_neg fun hkey => ht ((hmem t).mpr hkey))

/-! ## Section 2: Insertion -/

theorem attach_withCounts {i : Nat} (h : (s.withCounts c).attach tenant i = some t) :
    ∃ s' c', s.attach tenant i = some s' ∧ t = s'.withCounts c' := by
  simp only [attach, bind_eq_bind, bind_eq_some_iff] at h
  obtain ⟨n, hn, h⟩ := h
  change s.nodes i = some n at hn
  simp only [attach, hn, bind_eq_bind, bind_some]
  by_cases hmem : tenant ∈ n.tenantLastAccessTime
  · rw [if_pos hmem] at h ⊢
    exact ⟨s, c, rfl, (Option.some.inj h).symm⟩
  · rw [if_neg hmem] at h ⊢
    exact ⟨_, _, rfl, (Option.some.inj h).symm⟩

theorem splitNode_withCounts {prev m k : Nat} {p matched : Node} {firstChar : Char}
    (h : (s.withCounts c).splitNode prev p firstChar m matched k = some t) :
    ∃ s', s.splitNode prev p firstChar m matched k = some s' ∧ t = s'.withCounts c := by
  simp only [splitNode, bind_eq_bind, bind_eq_some_iff] at h ⊢
  obtain ⟨x, hx, h⟩ := h
  exact ⟨_, ⟨x, hx, rfl⟩, (Option.some.inj h).symm⟩

theorem insertLoop_withCounts (epoch : Nat) : ∀ (fuel : Nat) {s t : Tree}
    {c : Finmap fun _ : String => Nat} {prev : Nat} {remaining : List Char},
    insertLoop tenant epoch fuel (s.withCounts c) prev remaining = some t →
      ∃ s' c', insertLoop tenant epoch fuel s prev remaining = some s' ∧ t = s'.withCounts c' := by
  intro fuel
  induction fuel with
  | zero =>
    intro s t c prev remaining h
    cases h
  | succ fuel ih =>
    intro s t c prev remaining h
    cases remaining with
    | nil =>
      simp only [insertLoop, bind_eq_bind, bind_eq_some_iff] at h ⊢
      obtain ⟨p, hp, h⟩ := h
      exact ⟨_, c, ⟨p, hp, rfl⟩, (Option.some.inj h).symm⟩
    | cons firstChar rest =>
      simp only [insertLoop, bind_eq_bind, bind_eq_some_iff] at h
      obtain ⟨p, hp, h⟩ := h
      change s.nodes prev = some p at hp
      simp only [insertLoop, hp, bind_eq_bind, bind_some]
      cases hchild : p.children.lookup firstChar with
      | none =>
        rw [hchild] at h
        exact ⟨_, _, rfl, (Option.some.inj h).symm⟩
      | some m =>
        rw [hchild] at h
        simp only [bind_eq_some_iff] at h
        obtain ⟨matched, hm, h⟩ := h
        change s.nodes m = some matched at hm
        simp only [hm, bind_some]
        split at h
        · next hlt =>
          simp only [bind_eq_some_iff] at h
          obtain ⟨s₁, hsplit, s₂, hattach, tail, htail, h⟩ := h
          obtain ⟨u₁, hu₁, rfl⟩ := splitNode_withCounts hsplit
          obtain ⟨u₂, c₂, hu₂, rfl⟩ := attach_withCounts hattach
          obtain ⟨u, c', hu, rfl⟩ := ih h
          refine ⟨u, c', ?_, rfl⟩
          change _ = some _ at hu₂
          simp only [hlt, if_true, hu₁, bind_some]
          rw [show s.counter = (s.withCounts c).counter from rfl, hu₂]
          simp only [bind_some, htail]
          exact hu
        · next hlt =>
          simp only [bind_eq_some_iff] at h
          obtain ⟨s₂, hattach, tail, htail, h⟩ := h
          obtain ⟨u₂, c₂, hu₂, rfl⟩ := attach_withCounts hattach
          obtain ⟨u, c', hu, rfl⟩ := ih h
          refine ⟨u, c', ?_, rfl⟩
          simp only [hlt, if_false, hu₂, bind_some, htail]
          exact hu

theorem ensureTenant_withCounts (h : (s.withCounts c).ensureTenant tenant = some t) :
    ∃ s' c', s.ensureTenant tenant = some s' ∧ t = s'.withCounts c' := by
  simp only [ensureTenant, bind_eq_bind, bind_eq_some_iff] at h
  obtain ⟨r, hr, h⟩ := h
  change s.nodes root = some r at hr
  simp only [ensureTenant, hr, bind_eq_bind, bind_some]
  refine ⟨_, t.tenantCharCount, rfl, ?_⟩
  rw [← Option.some.inj h]
  by_cases hmem : tenant ∈ r.tenantLastAccessTime
  · simp only [if_pos hmem]
    split <;> split <;> rfl
  · simp only [if_neg hmem]
    split <;> split <;> rfl

theorem insert_withCounts {epoch : Nat} {text : List Char}
    (h : (s.withCounts c).insert epoch text tenant = some t) :
    ∃ s' c', s.insert epoch text tenant = some s' ∧ t = s'.withCounts c' := by
  simp only [insert, bind_eq_bind, bind_eq_some_iff] at h
  obtain ⟨s₁, hensure, h⟩ := h
  obtain ⟨u₁, c₁, hu₁, rfl⟩ := ensureTenant_withCounts hensure
  obtain ⟨u, c', hu, rfl⟩ := insertLoop_withCounts epoch _ h
  exact ⟨u, c', by simp only [insert, hu₁, bind_eq_bind, bind_some, hu], rfl⟩

/-! ## Section 3: Removal -/

theorem dropTenant_withCounts (i : Nat) (n : Node) :
    (s.withCounts c).dropTenant i n tenant = (s.dropTenant i n tenant).withCounts c := by
  rw [dropTenant_eq, dropTenant_eq]
  simp only [withCounts, setNode]
  repeat' split
  all_goals rfl

theorem removeLoop_withCounts : ∀ (fuel : Nat) {s t : Tree} {c : Finmap fun _ : String => Nat}
    {queue : List Nat}, removeLoop tenant fuel (s.withCounts c) queue = some t →
      ∃ s', removeLoop tenant fuel s queue = some s' ∧ t = s'.withCounts c := by
  intro fuel
  induction fuel with
  | zero =>
    intro s t c queue h
    cases h
  | succ fuel ih =>
    intro s t c queue h
    cases queue with
    | nil => exact ⟨s, rfl, (Option.some.inj h).symm⟩
    | cons curr queue =>
      simp only [removeLoop, bind_eq_bind, bind_eq_some_iff] at h
      obtain ⟨n, hn, h⟩ := h
      change s.nodes curr = some n at hn
      rw [dropTenant_withCounts] at h
      simp only [removeLoop, hn, bind_eq_bind, bind_some]
      have hleaf : ((s.dropTenant curr n tenant).withCounts c).newLeaf n.parent tenant =
          (s.dropTenant curr n tenant).newLeaf n.parent tenant := rfl
      rw [hleaf] at h
      cases hnew : (s.dropTenant curr n tenant).newLeaf n.parent tenant with
      | none =>
        rw [hnew] at h
        exact ih h
      | some entry =>
        rw [hnew] at h
        exact ih h

theorem visit_withCounts (order : DashOrder) : ∀ (fuel : Nat) (stack : List Nat),
    (s.withCounts c).visit order fuel stack = s.visit order fuel stack := by
  intro fuel
  induction fuel with
  | zero => exact fun _ => rfl
  | succ fuel ih =>
    intro stack
    cases stack with
    | nil => rfl
    | cons curr stack =>
      have hchildren : (s.withCounts c).childList order curr = s.childList order curr := rfl
      simp only [visit, hchildren, ih]

theorem tenantLeaves_withCounts (order : DashOrder) :
    (s.withCounts c).tenantLeaves order tenant = s.tenantLeaves order tenant := by
  have hvisited : (s.withCounts c).visited order = s.visited order := visit_withCounts order _ _
  rw [tenantLeaves, hvisited]
  rfl

theorem removeTenant_withCounts {order : DashOrder}
    (h : (s.withCounts c).removeTenant order tenant = some t) :
    ∃ s' c', s.removeTenant order tenant = some s' ∧ t = s'.withCounts c' := by
  simp only [removeTenant, bind_eq_bind, bind_eq_some_iff] at h
  obtain ⟨s₁, hloop, h⟩ := h
  rw [tenantLeaves_withCounts] at hloop
  obtain ⟨u, hu, rfl⟩ := removeLoop_withCounts (s.counter + 1) hloop
  refine ⟨{ u with tenantCharCount := u.tenantCharCount.erase tenant }, c.erase tenant, ?_,
    (Option.some.inj h).symm⟩
  simp only [removeTenant, hu, bind_eq_bind, bind_some]

theorem sturdy_insert (h : s.Sturdy) (epoch : Nat) (text : List Char) (tenant : String) :
    ∃ s', s.insert epoch text tenant = some s' ∧ s'.Sturdy := by
  obtain ⟨c, word, hinv⟩ := h.audit
  obtain ⟨t, word', heq, hinv', _⟩ := insert_spec hinv epoch text tenant
  obtain ⟨s', c', hs', rfl⟩ := insert_withCounts heq
  exact ⟨s', hs', hinv'.sturdy⟩

theorem sturdy_removeTenant (h : s.Sturdy) (order : DashOrder) (tenant : String) :
    ∃ s', s.removeTenant order tenant = some s' ∧ s'.Sturdy := by
  obtain ⟨c, word, hinv⟩ := h.audit
  obtain ⟨t, heq, hinv', _⟩ := removeTenant_spec hinv order tenant
  obtain ⟨s', c', hs', rfl⟩ := removeTenant_withCounts heq
  exact ⟨s', hs', hinv'.sturdy⟩

/-! ## Section 4: Lookup -/

theorem sturdy_root (h : s.Sturdy) (tenant : String) {n n' : Node} (hn : s.nodes root = some n)
    (hcell : n'.cell = n.cell) (hcount : n'.text.charCount = n.text.charCount)
    (htenants : ∀ t, t ∈ n'.tenantLastAccessTime ↔ t = tenant ∨ t ∈ n.tenantLastAccessTime) :
    (s.setNode root n').Sturdy := by
  obtain ⟨c, word, hinv⟩ := h.audit
  -- the tenant is ensured first, and then only times and the cache change
  obtain ⟨s₁, heq, hinv₁, _, hgrant⟩ := ensureTenant_spec hinv tenant
  obtain ⟨u, c', hu, rfl⟩ := ensureTenant_withCounts heq
  have hroot : ∃ m, u.nodes root = some m ∧ m.cell = n.cell ∧ m.text.charCount = n.text.charCount ∧
      (∀ i, i ≠ root → u.nodes i = s.nodes i) ∧ u.counter = s.counter := by
    simp only [ensureTenant, hn, bind_eq_bind, bind_some, Option.some.injEq] at hu
    rw [← hu]
    by_cases hmem : tenant ∈ n.tenantLastAccessTime
    · simp only [if_pos hmem]
      split
      · exact ⟨n, hn, rfl, rfl, fun _ _ => rfl, rfl⟩
      · exact ⟨n, hn, rfl, rfl, fun _ _ => rfl, rfl⟩
    · simp only [if_neg hmem]
      have hself : (s.setNode root (n.access tenant 0)).nodes root = some (n.access tenant 0) := by
        simp only [setNode, update_self]
      have hothers : ∀ i, i ≠ root → (s.setNode root (n.access tenant 0)).nodes i = s.nodes i :=
        fun i hi => update_of_ne hi ..
      split
      · exact ⟨_, hself, rfl, rfl, hothers, rfl⟩
      · exact ⟨_, hself, rfl, rfl, hothers, rfl⟩
  obtain ⟨m, hm, hmcell, hmcount, hothers, hcounter⟩ := hroot
  have hsame : SameTenants m n' := by
    refine ⟨hcell.trans hmcell.symm, hcount.trans hmcount.symm, fun t => ?_⟩
    rw [htenants, ← hasTenant_iff (s := u.withCounts c') hm]
    refine Iff.trans ?_ (hgrant root t).symm
    rw [hasTenant_iff (s := s.withCounts c) hn]
    tauto
  obtain ⟨hinv₂, _⟩ := hinv₁.touch hm hsame
  have hnodes : ((u.withCounts c').setNode root n') = (s.setNode root n').withCounts c' := by
    simp only [withCounts, setNode, hcounter]
    congr 1
    funext i
    by_cases hi : i = root
    · subst hi
      rw [update_self, update_self]
    · rw [update_of_ne hi, update_of_ne hi, hothers i hi]
  rw [hnodes] at hinv₂
  exact hinv₂.sturdy

theorem matchLoop_withCounts (enters : Node → Bool) : ∀ (fuel prev : Nat) (remaining : List Char)
    (k : Nat), (s.withCounts c).matchLoop enters fuel prev remaining k =
      s.matchLoop enters fuel prev remaining k := by
  intro fuel
  induction fuel with
  | zero => exact fun _ _ _ => rfl
  | succ fuel ih =>
    intro prev remaining k
    cases remaining with
    | nil => rfl
    | cons firstChar rest =>
      simp only [matchLoop, ih]
      rfl

/-- The length of the longest prefix of a text that a tenant has. -/
noncomputable def longest (s : Tree) (text : List Char) : Nat :=
  longestShared {w | ∃ t, w ∈ s.stored t} text

/-- The longest prefix ends in a node: the text of the node goes on from it, and no shorter one
does. -/
structure Ends (s : Tree) (text : List Char) (i : Nat) : Prop where
  spelt : text.take (s.longest text) <+: s.textOf i
  least : ∀ {j n}, s.nodes j = some n → text.take (s.longest text) <+: s.textOf j →
    s.textOf i <+: s.textOf j

theorem Ends.unique {text : List Char} {i j : Nat} {n m : Node} (h : s.Sturdy)
    (hn : s.nodes i = some n) (hm : s.nodes j = some m) (hi : s.Ends text i) (hj : s.Ends text j) :
    i = j := by
  obtain ⟨word, hshape, _⟩ := h
  have hij := hi.least hm hj.spelt
  have hji := hj.least hn hi.spelt
  rw [hshape.textOf_eq hn, hshape.textOf_eq hm] at hij hji
  exact hshape.trie.word_injective (heap_at hn) (heap_at hm)
    (hij.eq_of_length (le_antisymm hij.length_le hji.length_le))

theorem Stops.ends {text : List Char} {curr k : Nat} (hshape : s.Shape word)
    (htenanted : s.Tenanted) (hstops : s.Stops word (fun _ => true) text curr k) :
    s.longest text = k ∧ s.Ends text curr := by
  obtain ⟨n, hn, _⟩ := hstops.node
  have hlongest : s.longest text = k := by
    refine longestShared_eq hstops.le ?_ ?_
    · by_cases hroot : curr = root
      · exact .inl (hstops.eq_zero hshape hroot)
      · obtain ⟨t, ht⟩ := htenanted.held hn hroot
        exact .inr ⟨t, hshape.mem_stored.mpr ⟨curr, ⟨n, hn, ht⟩, hstops.spelt⟩⟩
    · rintro w ⟨t, hw⟩
      exact hstops.lcp_le (fun _ _ => rfl) (hshape.mem_stored.mp hw)
  refine ⟨hlongest, ?_, ?_⟩
  · rw [hlongest, hshape.textOf_eq hn]
    exact hstops.spelt
  · intro j m hm hpre
    rw [hlongest, hshape.textOf_eq hm] at hpre
    rw [hshape.textOf_eq hn, hshape.textOf_eq hm]
    exact hstops.least hm hpre

/-- A lookup returns the longest prefix and a tenant of the node in which it ends. -/
theorem sturdy_prefixMatchWithCounts (h : s.Sturdy) (order : DashOrder) (epoch : Nat)
    (text : List Char) :
    ∃ s' i n, s.prefixMatchWithCounts order epoch text =
        some (s', ⟨(pickTenant order n).1, s.longest text, text.length⟩) ∧
      s'.Sturdy ∧ s.nodes i = some n ∧ s.Ends text i := by
  obtain ⟨c, word, hinv⟩ := h.audit
  have hshape : s.Shape word := ⟨hinv.shape.trie, hinv.shape.fresh⟩
  obtain ⟨t, r, heq, _, _, hkeep⟩ := prefixMatchWithCounts_spec hinv order epoch text
  simp only [prefixMatchWithCounts, matchLoop_withCounts, bind_eq_bind,
    bind_eq_some_iff] at heq
  obtain ⟨⟨curr, k⟩, hloop, n, hn, heq⟩ := heq
  obtain ⟨rfl, rfl⟩ := Prod.mk.inj (Option.some.inj heq)
  change s.nodes curr = some n at hn
  obtain ⟨curr', k', hloop', hstops⟩ := matchLoop_root hshape (fun _ => true) text
    (fun _ _ _ _ => rfl)
  rw [hloop, Option.some.injEq, Prod.mk.injEq] at hloop'
  obtain ⟨rfl, rfl⟩ := hloop'
  obtain ⟨hlongest, hends⟩ := hstops.ends hshape ⟨hinv.tenanted.below, hinv.tenanted.held⟩
  refine ⟨s.setNode curr (if epoch &&& 0x7 = 0
      then (pickTenant order n).2.access (pickTenant order n).1 epoch
      else (pickTenant order n).2), curr, n,
    by simp only [prefixMatchWithCounts, hloop, hn, hlongest, bind_eq_bind, bind_some],
    ?_, hn, hends⟩
  by_cases hguard : (∃ t, (s.withCounts c).HasTenant root t) ∨ epoch &&& 0x7 ≠ 0
  · exact (hkeep hguard).1.sturdy (c := c)
  · -- nobody is in the tree, so that the lookup stopped at the root
    have hepoch : epoch &&& 0x7 = 0 := by
      by_contra hne
      exact hguard (.inr hne)
    have hcurr : curr = root := by
      by_contra hne
      obtain ⟨t, ht⟩ := hinv.tenanted.held (s := s.withCounts c) hn hne
      exact hguard (.inl ⟨t, hinv.tenanted.root_has hinv.shape ⟨n, hn, ht⟩⟩)
    subst hcurr
    obtain ⟨hsame, _⟩ := pickTenant_spec order n
    rw [if_pos hepoch]
    refine sturdy_root h (pickTenant order n).1 hn hsame.cell hsame.count fun t => ?_
    rw [mem_access, hsame.tenants]

/-- A tenant that a lookup may return at a node: the cached one while it is there, else any tenant
of the node. -/
def Offers (n : Node) (tenant : String) : Prop :=
  if ∃ t ∈ n.lastTenant, t ∈ n.tenantLastAccessTime then n.lastTenant = some tenant
  else tenant ∈ n.tenantLastAccessTime ∨ n.tenantLastAccessTime = ∅ ∧ tenant = "empty"

theorem exists_order_first (x : String) : ∃ o : IterOrder String, ∀ keys, x ∈ keys →
    (o.list keys).head? = some x := by
  refine ⟨⟨fun keys => if x ∈ keys then x :: (keys.erase x).toList else keys.toList, ?_, ?_⟩, ?_⟩
  · intro keys
    split
    · refine nodup_cons.mpr ⟨?_, Finset.nodup_toList _⟩
      rw [Finset.mem_toList]
      exact Finset.notMem_erase x keys
    · exact Finset.nodup_toList keys
  · intro keys y
    split
    · next hx =>
      rw [mem_cons, Finset.mem_toList, Finset.mem_erase]
      by_cases hy : y = x
      · exact iff_of_true (.inl hy) (hy ▸ hx)
      · exact ⟨fun h => (h.resolve_left hy).2, fun h => .inr ⟨hy, h⟩⟩
    · exact Finset.mem_toList
  · intro keys hx
    simp only [hx, if_true, head?_cons]

/-- What is chosen at a node is offered there, and every offer may be chosen. -/
theorem offers_iff (n : Node) (tenant : String) :
    Offers n tenant ↔ ∃ order, (pickTenant order n).1 = tenant := by
  have hkeys : n.tenantLastAccessTime = ∅ ↔ n.tenantLastAccessTime.keys = ∅ := by
    rw [Finset.eq_empty_iff_forall_notMem]
    simp only [Finmap.mem_keys]
    constructor
    · intro h t
      rw [h]
      exact Finmap.notMem_empty
    · intro h
      apply Finmap.ext_lookup
      intro t
      rw [Finmap.lookup_empty, Finmap.lookup_eq_none]
      exact h t
  -- the first tenant in some order
  have hfirst : (∃ order : DashOrder,
      (order.tenants.list n.tenantLastAccessTime.keys).head?.getD "empty" = tenant) ↔
      tenant ∈ n.tenantLastAccessTime ∨ n.tenantLastAccessTime = ∅ ∧ tenant = "empty" := by
    constructor
    · rintro ⟨order, rfl⟩
      cases hlist : order.tenants.list n.tenantLastAccessTime.keys with
      | nil =>
        refine .inr ⟨?_, rfl⟩
        rw [hkeys, Finset.eq_empty_iff_forall_notMem]
        intro t ht
        rw [← order.tenants.mem, hlist] at ht
        exact absurd ht not_mem_nil
      | cons t rest =>
        left
        rw [head?_cons, getD_some, ← Finmap.mem_keys, ← order.tenants.mem, hlist]
        exact mem_cons_self
    · rintro (hmem | ⟨hempty, rfl⟩)
      · obtain ⟨o, ho⟩ := exists_order_first tenant
        refine ⟨⟨o, sortedOrder.children⟩, ?_⟩
        rw [ho _ (Finmap.mem_keys.mpr hmem), getD_some]
      · refine ⟨sortedOrder, ?_⟩
        have hnil : sortedOrder.tenants.list n.tenantLastAccessTime.keys = [] := by
          rw [eq_nil_iff_forall_not_mem]
          intro t ht
          rw [sortedOrder.tenants.mem, hkeys.mp hempty] at ht
          exact absurd ht (Finset.notMem_empty t)
        rw [hnil]
        rfl
  unfold Offers
  by_cases hcached : ∃ t ∈ n.lastTenant, t ∈ n.tenantLastAccessTime
  · obtain ⟨t, hlast, hmem⟩ := hcached
    rw [mem_def] at hlast
    have hpick : ∀ order, (pickTenant order n).1 = t := by
      intro order
      simp only [pickTenant, hlast, hmem, if_true]
    rw [if_pos ⟨t, hlast, hmem⟩, hlast, Option.some.injEq]
    simp only [hpick, exists_const_iff]
    exact ⟨fun h => ⟨⟨sortedOrder⟩, h⟩, fun h => h.2⟩
  · have hpick : ∀ order, (pickTenant order n).1 =
        (order.tenants.list n.tenantLastAccessTime.keys).head?.getD "empty" := by
      intro order
      unfold pickTenant
      split
      · next t hlast =>
        rw [if_neg fun hmem => hcached ⟨t, hlast, hmem⟩]
      · rfl
    rw [if_neg hcached]
    simp only [hpick]
    exact hfirst.symm

/-! ## Section 5: Eviction -/

/-- The loop of the eviction goes on until the heap is empty, whatever the accounts say. -/
theorem sturdy_evictLoop (tie : List EvictionEntry → Nat) (maxSize : Nat) : ∀ (fuel : Nat)
    {s : Tree} {pq : List EvictionEntry}, s.Sturdy → pq.length + s.holdings < fuel →
    ∃ s', evictLoop tie maxSize fuel s pq = some s' ∧ s'.Sturdy := by
  intro fuel
  induction fuel with
  | zero => exact fun _ hfuel => absurd hfuel (Nat.not_lt_zero _)
  | succ fuel ih =>
    intro s pq h hfuel
    cases hpop : popMin tie pq with
    | none => exact ⟨s, by simp only [evictLoop, hpop], h⟩
    | some popped =>
      obtain ⟨e, rest⟩ := popped
      obtain ⟨hmem, rfl⟩ := popMin_some hpop
      have hlen : (pq.erase e).length + 1 = pq.length := by
        rw [length_erase_of_mem hmem]
        have := length_pos_of_mem hmem
        omega
      have hskip : ∃ s', evictLoop tie maxSize fuel s (pq.erase e) = some s' ∧ s'.Sturdy :=
        ih h (by omega)
      by_cases hfits : s.Fits maxSize e.tenant
      · simp only [evictLoop, hpop, if_pos hfits]
        exact hskip
      · cases hn : s.nodes e.node with
        | none =>
          simp only [evictLoop, hpop, if_neg hfits, hn]
          exact hskip
        | some n =>
          by_cases htest : e.tenant ∈ n.tenantLastAccessTime ∧ ¬ s.ChildHas n e.tenant
          · obtain ⟨word, hshape, htenanted⟩ := h
            have hleaf := (leafAt_iff hshape hn e.tenant).mpr htest
            obtain ⟨hshape', htenanted', _⟩ := dropTenant_spec hshape htenanted hn hleaf
            have hhold := holdings_dropTenant e.tenant hshape hn htest.1
            obtain ⟨c, hsub⟩ : ∃ c, s.subChars e.tenant n.text.charCount = s.withCounts c := by
              unfold subChars
              split
              · exact ⟨s.tenantCharCount, rfl⟩
              · exact ⟨_, rfl⟩
            have hdropped : ((s.withCounts c).dropTenant e.node n e.tenant).Sturdy := by
              rw [dropTenant_withCounts]
              exact ⟨word, ⟨hshape'.trie, hshape'.fresh⟩, ⟨htenanted'.below, htenanted'.held⟩⟩
            have hholdings : ((s.withCounts c).dropTenant e.node n e.tenant).holdings + 1 =
                s.holdings := by
              rw [dropTenant_withCounts]
              exact hhold
            simp only [evictLoop, hpop, if_neg hfits, hn, if_pos htest, hsub]
            split
            · exact ih hdropped (by omega)
            · exact ih hdropped (by
                rw [length_cons]
                omega)
          · simp only [evictLoop, hpop, if_neg hfits, hn, if_neg htest]
            exact hskip

theorem sturdy_evictTenantBySize (h : s.Sturdy) (order : DashOrder)
    (tie : List EvictionEntry → Nat) (maxSize : Nat) :
    ∃ s', s.evictTenantBySize order tie maxSize = some s' ∧ s'.Sturdy :=
  sturdy_evictLoop tie maxSize _ h (Nat.lt_succ_self _)

end Tree
end Sglang.Gateway
