import Sglang.Gateway.TenantTree
import Sglang.Lib.NodeSum
import Sglang.Lib.PageTrieMutation

/-!
# Invariant of the Routing Tree

The nodes form a trie of characters; a tenant of a node is one of its parent; every node but the
root has a tenant; and `tenant_char_count` is the number of characters of the nodes of each tenant.
Every step of an insertion keeps this.

- `Shape`, `Tenanted`, `CountOk`, `Inv`: the invariant,
- `Holds`: the texts a tenant has in the tree, with their beginnings.
-/

namespace Sglang.Gateway

open List Function
open Lib
open Lib.PageTrie

/-! ## Section 1: The invariant -/

def Node.cell (n : Node) : Cell Char Char := ⟨n.parent, n.text.text, fun c => n.children.lookup c⟩

/-- The character that a label is filed under. -/
def firstOf (label : List Char) : Char := label.headD 'a'

namespace Tree

def heap (s : Tree) : Heap Char Char := fun i => (s.nodes i).map Node.cell

def HasTenant (s : Tree) (i : Nat) (tenant : String) : Prop :=
  ∃ n, s.nodes i = some n ∧ tenant ∈ n.tenantLastAccessTime

instance (s : Tree) (i : Nat) (tenant : String) : Decidable (s.HasTenant i tenant) :=
  decidable_of_iff (∃ n ∈ s.nodes i, tenant ∈ n.tenantLastAccessTime) Iff.rfl

/-- The characters of a node that a tenant is charged for. -/
def charsFor (tenant : String) : Option Node → Nat
  | none => 0
  | some n => if tenant ∈ n.tenantLastAccessTime then n.text.charCount else 0

/-- The characters of all nodes of a tenant. -/
def used (s : Tree) (tenant : String) : Nat := nodeSum (charsFor tenant) s.nodes s.counter

structure Shape (s : Tree) (word : Nat → List Char) : Prop where
  trie : WellFormed firstOf 1 root s.heap word
  fresh : ∀ {i n}, s.nodes i = some n → i < s.counter

structure Tenanted (s : Tree) : Prop where
  below : ∀ {i n p t}, s.nodes i = some n → n.parent = some p → t ∈ n.tenantLastAccessTime →
    s.HasTenant p t
  held : ∀ {i n}, s.nodes i = some n → i ≠ root → ∃ t, t ∈ n.tenantLastAccessTime

/-- `tenant_char_count` is right for a tenant. -/
structure CountOk (s : Tree) (tenant : String) : Prop where
  present : s.HasTenant root tenant → s.tenantCharCount.lookup tenant = some (s.used tenant)
  absent : ¬ s.HasTenant root tenant → s.tenantCharCount.lookup tenant = none

structure Inv (s : Tree) (word : Nat → List Char) : Prop where
  shape : s.Shape word
  tenanted : s.Tenanted
  counts : ∀ t, s.CountOk t

/-- A tenant has a text, or one that goes on after it. -/
def Holds (s : Tree) (word : Nat → List Char) (tenant : String) (w : List Char) : Prop :=
  ∃ i, s.HasTenant i tenant ∧ w <+: word i

section Facts

variable {s : Tree} {word : Nat → List Char}

theorem heap_at {i : Nat} {n : Node} (h : s.nodes i = some n) : s.heap i = some n.cell := by
  simp [heap, h]

theorem heap_some {i : Nat} {c : Cell Char Char} (h : s.heap i = some c) :
    ∃ n, s.nodes i = some n ∧ n.cell = c := Option.map_eq_some_iff.mp h

theorem heap_none {i : Nat} (h : s.nodes i = none) : s.heap i = none := by simp [heap, h]

theorem HasTenant.node {i : Nat} {t : String} (h : s.HasTenant i t) : ∃ n, s.nodes i = some n := by
  obtain ⟨n, hn, _⟩ := h
  exact ⟨n, hn⟩

theorem hasTenant_iff {i : Nat} {n : Node} (h : s.nodes i = some n) (t : String) :
    s.HasTenant i t ↔ t ∈ n.tenantLastAccessTime := by
  constructor
  · rintro ⟨m, hm, ht⟩
    rw [h] at hm
    cases hm
    exact ht
  · exact fun ht => ⟨n, h, ht⟩

section

variable (h : s.Shape word)
include h

theorem Shape.root : ∃ r, s.nodes root = some r ∧ r.parent = none ∧
    r.text.text = [] := by
  obtain ⟨c, hc, hpar, hlab⟩ := h.trie.root_cell
  obtain ⟨n, hn, rfl⟩ := heap_some hc
  exact ⟨n, hn, hpar, hlab⟩

theorem Shape.parent {i : Nat} {n : Node} (hi : s.nodes i = some n)
    (hroot : i ≠ Tree.root) : ∃ p pn, n.parent = some p ∧ s.nodes p = some pn ∧
      pn.children.lookup (firstOf (n.text.text.take 1)) = some i := by
  obtain ⟨p, pc, hp, hpc, hfile⟩ := h.trie.filed (heap_at hi) hroot
  obtain ⟨pn, hpn, rfl⟩ := heap_some hpc
  exact ⟨p, pn, hp, hpn, hfile⟩

theorem Shape.child {p i : Nat} {pn : Node} {c : Char}
    (hp : s.nodes p = some pn) (hc : pn.children.lookup c = some i) :
    ∃ n, s.nodes i = some n ∧ n.parent = some p ∧ n.text.text.head? = some c := by
  obtain ⟨ic, hic, hpar, hidx⟩ := h.trie.child_cell (heap_at hp) hc
  obtain ⟨n, hn, rfl⟩ := heap_some hic
  have hne : n.text.text ≠ [] :=
    h.trie.label_ne (heap_at hn) (h.trie.ne_root_of_parent (heap_at hn) hpar)
  refine ⟨n, hn, hpar, ?_⟩
  obtain ⟨d, l, hl⟩ := exists_cons_of_ne_nil hne
  change firstOf (n.text.text.take 1) = c at hidx
  rw [hl] at hidx ⊢
  exact congrArg some hidx

theorem Shape.word_child {i p : Nat} {n : Node} (hi : s.nodes i = some n)
    (hp : n.parent = some p) : word i = word p ++ n.text.text :=
  h.trie.word_child (heap_at hi) hp

theorem Shape.word_root : word Tree.root = [] := h.trie.word_root

theorem Shape.ne_root {i p : Nat} {n : Node} (hi : s.nodes i = some n)
    (hp : n.parent = some p) : i ≠ Tree.root := h.trie.ne_root_of_parent (heap_at hi) hp

theorem Shape.dead : s.nodes s.counter = none := by
  cases hc : s.nodes s.counter with
  | none => rfl
  | some n => exact absurd (h.fresh hc) (lt_irrefl _)

end

theorem Tenanted.above (ht : s.Tenanted) (h : s.Shape word) {i j : Nat} {n : Node} {t : String}
    (hi : s.nodes i = some n) (hj : s.HasTenant j t) (hpre : word i <+: word j) :
    s.HasTenant i t := by
  obtain ⟨m, hm⟩ := hj.node
  obtain ⟨l, path⟩ := h.trie.exists_path (heap_at hm)
  have hclimb : ∀ {j : Nat} {l : List Nat}, PathUp s.heap root j l → s.HasTenant j t →
      ∀ k, k ∈ l ∨ k = root → s.HasTenant k t := by
    intro j l path
    induction path with
    | root =>
      rintro hj k (hk | rfl)
      · exact absurd hk not_mem_nil
      · exact hj
    | @cons j p c l hn hroot hp _ ih =>
      intro hj k hk
      obtain ⟨m, hm, rfl⟩ := heap_some hn
      rcases hk with hk | rfl
      · rcases mem_cons.mp hk with rfl | hk
        · exact hj
        · exact ih (ht.below hm hp ((hasTenant_iff hm t).mp hj)) k (.inl hk)
      · exact ih (ht.below hm hp ((hasTenant_iff hm t).mp hj)) _ (.inr rfl)
  exact hclimb path hj i (h.trie.mem_path_of_isPrefix path (heap_at hi) hpre)

theorem Tenanted.root_has (ht : s.Tenanted) (h : s.Shape word) {j : Nat} {t : String}
    (hj : s.HasTenant j t) : s.HasTenant root t := by
  obtain ⟨r, hr, _⟩ := h.root
  refine ht.above h hr hj ?_
  rw [h.word_root]
  exact nil_prefix

theorem tenanted_of
    (hbelow : ∀ {i p c t}, s.heap i = some c → c.parent = some p → s.HasTenant i t →
      s.HasTenant p t)
    (hheld : ∀ {i c}, s.heap i = some c → i ≠ root → ∃ t, s.HasTenant i t) : s.Tenanted := by
  constructor
  · intro i n p t hi hp ht
    exact hbelow (heap_at hi) hp ⟨n, hi, ht⟩
  · intro i n hi hroot
    obtain ⟨t, ht⟩ := hheld (heap_at hi) hroot
    exact ⟨t, (hasTenant_iff hi t).mp ht⟩

theorem Tenanted.below_cell (ht : s.Tenanted) {i p : Nat} {c : Cell Char Char} {t : String}
    (hi : s.heap i = some c) (hp : c.parent = some p) (hit : s.HasTenant i t) :
    s.HasTenant p t := by
  obtain ⟨n, hn, rfl⟩ := heap_some hi
  exact ht.below hn hp ((hasTenant_iff hn t).mp hit)

theorem Tenanted.held_cell (ht : s.Tenanted) {i : Nat} {c : Cell Char Char}
    (hi : s.heap i = some c) (hroot : i ≠ root) : ∃ t, s.HasTenant i t := by
  obtain ⟨n, hn, rfl⟩ := heap_some hi
  obtain ⟨t, hmem⟩ := ht.held hn hroot
  exact ⟨t, n, hn, hmem⟩

theorem charsFor_eq_zero {i : Nat} {t : String} (hno : ¬ s.HasTenant i t) :
    charsFor t (s.nodes i) = 0 := by
  cases hi : s.nodes i with
  | none => rfl
  | some n =>
    rw [hasTenant_iff hi] at hno
    simp [charsFor, hno]

theorem used_eq_zero (ht : s.Tenanted) (h : s.Shape word) {t : String}
    (hroot : ¬ s.HasTenant root t) : s.used t = 0 := by
  unfold used nodeSum
  apply Finset.sum_eq_zero
  intro i _
  exact charsFor_eq_zero fun hi => hroot (ht.root_has h hi)

end Facts

/-! ## Section 2: Changes of one node -/

/-- Two nodes with the same links, text and tenants. -/
structure SameTenants (n n' : Node) : Prop where
  cell : n'.cell = n.cell
  count : n'.text.charCount = n.text.charCount
  tenants : ∀ t, t ∈ n'.tenantLastAccessTime ↔ t ∈ n.tenantLastAccessTime

section OneNode

variable {s : Tree} {word : Nat → List Char} {i : Nat} {n n' : Node}

theorem heap_setNode (hi : s.nodes i = some n) (hc : n'.cell = n.cell) :
    (s.setNode i n').heap = s.heap := by
  funext j
  by_cases hj : j = i
  · subst hj
    simp [heap, setNode, hi, hc]
  · simp [heap, setNode, update_of_ne hj]

variable (n') in
theorem shape_setNode (h : s.Shape word) (hi : s.nodes i = some n) (hc : n'.cell = n.cell) :
    (s.setNode i n').Shape word := by
  refine ⟨by rw [heap_setNode hi hc]; exact h.trie, ?_⟩
  intro j m hj
  by_cases hji : j = i
  · subst hji
    exact h.fresh hi
  · simp only [setNode, update_of_ne hji] at hj
    exact h.fresh hj

variable (n') in
theorem hasTenant_setNode (j : Nat) (t : String) :
    (s.setNode i n').HasTenant j t ↔
      if j = i then t ∈ n'.tenantLastAccessTime else s.HasTenant j t := by
  by_cases hj : j = i
  · subst hj
    simp [HasTenant, setNode]
  · simp [HasTenant, setNode, hj]

variable (n') in
theorem used_setNode (h : s.Shape word) (hi : s.nodes i = some n) (t : String) :
    (s.setNode i n').used t + charsFor t (some n) = s.used t + charsFor t (some n') := by
  have hsum := nodeSum_update (charsFor t) s.nodes (h.fresh hi) (some n')
  rw [hi] at hsum
  exact hsum

/-- A change of the timestamps and of the cache keeps everything. -/
theorem Inv.touch (h : s.Inv word) (hi : s.nodes i = some n) (hsame : SameTenants n n') :
    (s.setNode i n').Inv word ∧ ∀ j t, (s.setNode i n').HasTenant j t ↔ s.HasTenant j t := by
  have htenants : ∀ j t, (s.setNode i n').HasTenant j t ↔ s.HasTenant j t := by
    intro j t
    rw [hasTenant_setNode]
    split
    · next hj =>
      subst hj
      rw [hsame.tenants, hasTenant_iff hi]
    · rfl
  have hchars : ∀ t, charsFor t (some n') = charsFor t (some n) := by
    intro t
    by_cases ht : t ∈ n.tenantLastAccessTime
    · simp [charsFor, ht, (hsame.tenants t).mpr ht, hsame.count]
    · simp [charsFor, ht, hsame.tenants t]
  have hused : ∀ t, (s.setNode i n').used t = s.used t := by
    intro t
    have hsum := used_setNode n' h.shape hi t
    rw [hchars] at hsum
    omega
  refine ⟨⟨shape_setNode _ h.shape hi hsame.cell, ⟨?_, ?_⟩, ?_⟩, htenants⟩
  · intro j m p t hj hp ht
    rw [htenants]
    by_cases hji : j = i
    · subst hji
      simp only [setNode, update_self, Option.some.injEq] at hj
      subst hj
      have hpar : n.parent = some p := by
        have := congrArg Cell.parent hsame.cell
        exact this.symm.trans hp
      exact h.tenanted.below hi hpar ((hsame.tenants t).mp ht)
    · simp only [setNode, update_of_ne hji] at hj
      exact h.tenanted.below hj hp ht
  · intro j m hj hroot
    by_cases hji : j = i
    · subst hji
      simp only [setNode, update_self, Option.some.injEq] at hj
      subst hj
      obtain ⟨t, ht⟩ := h.tenanted.held hi hroot
      exact ⟨t, (hsame.tenants t).mpr ht⟩
    · simp only [setNode, update_of_ne hji] at hj
      exact h.tenanted.held hj hroot
  · intro t
    refine ⟨?_, ?_⟩
    · rw [htenants, hused]
      exact (h.counts t).present
    · rw [htenants]
      exact (h.counts t).absent

theorem mem_access {t t' : String} {epoch : Nat} :
    t' ∈ (n.access t epoch).tenantLastAccessTime ↔ t' = t ∨ t' ∈ n.tenantLastAccessTime := by
  simp [Node.access, Finmap.mem_insert]

theorem sameTenants_access {t : String} (ht : t ∈ n.tenantLastAccessTime) (epoch : Nat) :
    SameTenants n (n.access t epoch) := by
  refine ⟨rfl, rfl, fun t' => ?_⟩
  rw [mem_access]
  constructor
  · rintro (rfl | h)
    · exact ht
    · exact h
  · exact .inr

end OneNode

end Tree

end Sglang.Gateway
