import Sglang.Gateway.TenantTreeInvariant

/-!
# Traversal of the Routing Tree

The loop over the stack pops every node exactly once, so the sizes that it adds up are the accounts.

- `Frontier`: what the loop keeps,
- `visited_spec`: it pops the nodes of the tree, each once,
- `getUsedSizePerTenant_eq`: the sizes are `tenant_char_count`.
-/

namespace Sglang.Gateway

open List
open Lib
open Lib.PageTrie

namespace Tree

variable {s : Tree} {word : Nat → List Char} {order : DashOrder}

/-! ## Section 1: Children -/

theorem mem_childList {i j : Nat} : i ∈ s.childList order j ↔
    ∃ n c, s.nodes j = some n ∧ n.children.lookup c = some i := by
  unfold childList
  cases hj : s.nodes j with
  | none => simp
  | some n =>
    simp only [mem_filterMap, Option.some.injEq]
    constructor
    · rintro ⟨c, _, hc⟩
      exact ⟨n, c, rfl, hc⟩
    · rintro ⟨_, c, rfl, hc⟩
      refine ⟨c, ?_, hc⟩
      rw [order.children.mem, Finmap.mem_keys, Finmap.mem_iff]
      exact ⟨i, hc⟩

theorem Shape.mem_childList_iff (h : s.Shape word) {i j : Nat} :
    i ∈ s.childList order j ↔ ∃ n, s.nodes i = some n ∧ n.parent = some j := by
  rw [mem_childList]
  constructor
  · rintro ⟨p, c, hp, hc⟩
    obtain ⟨n, hn, hpar, _⟩ := h.child hp hc
    exact ⟨n, hn, hpar⟩
  · rintro ⟨n, hn, hpar⟩
    obtain ⟨p, pn, hp, hpn, hfile⟩ := h.parent hn (h.ne_root hn hpar)
    rw [hpar] at hp
    cases hp
    exact ⟨pn, _, hpn, hfile⟩

theorem Shape.nodup_childList (h : s.Shape word) (j : Nat) : (s.childList order j).Nodup := by
  unfold childList
  cases hj : s.nodes j with
  | none => exact nodup_nil
  | some n =>
    apply (order.children.nodup _).filterMap
    -- a child is filed under its own first character only
    intro c d i hc hd
    obtain ⟨m, hm, _, hhead⟩ := h.child hj hc
    obtain ⟨m', hm', _, hhead'⟩ := h.child hj hd
    rw [hm] at hm'
    cases hm'
    rw [hhead] at hhead'
    exact Option.some.inj hhead'

/-! ## Section 2: The loop over the stack -/

/-- The nodes popped so far and the stack. -/
structure Frontier (s : Tree) (popped stack : List Nat) : Prop where
  nodup : (popped ++ stack).Nodup
  live : ∀ i ∈ popped ++ stack, ∃ n, s.nodes i = some n
  root : Tree.root ∈ popped ++ stack
  parent : ∀ {i n p}, i ∈ popped ++ stack → s.nodes i = some n → n.parent = some p → p ∈ popped
  children : ∀ {i n p}, p ∈ popped → s.nodes i = some n → n.parent = some p → i ∈ popped ++ stack

theorem Frontier.pop (h : s.Shape word) (order : DashOrder) {popped stack : List Nat} {curr : Nat}
    (hf : s.Frontier popped (curr :: stack)) :
    s.Frontier (popped ++ [curr]) ((s.childList order curr).reverse ++ stack) := by
  have hmem : ∀ i, i ∈ (popped ++ [curr]) ++ ((s.childList order curr).reverse ++ stack) ↔
      i ∈ popped ++ curr :: stack ∨ i ∈ s.childList order curr := by
    intro i
    simp only [mem_append, mem_reverse, mem_cons, not_mem_nil]
    tauto
  have hcurr : curr ∈ popped ++ curr :: stack :=
    mem_append_right _ (mem_cons_self ..)
  have hnew : ∀ i ∈ s.childList order curr, i ∉ popped ++ curr :: stack := by
    intro i hi hold
    obtain ⟨n, hn, hpar⟩ := h.mem_childList_iff.mp hi
    have hpop := hf.parent hold hn hpar
    exact (nodup_append.mp hf.nodup).2.2 curr hpop curr (mem_cons_self ..) rfl
  constructor
  · have hperm : List.Perm ((popped ++ [curr]) ++ ((s.childList order curr).reverse ++ stack))
        (s.childList order curr ++ (popped ++ curr :: stack)) := by
      rw [perm_iff_count]
      intro i
      simp only [count_append, count_cons, count_nil, count_reverse]
      omega
    rw [hperm.nodup_iff, nodup_append]
    refine ⟨h.nodup_childList curr, hf.nodup, ?_⟩
    rintro i hi j hj rfl
    exact hnew i hi hj
  · intro i hi
    rcases (hmem i).mp hi with hi | hi
    · exact hf.live i hi
    · obtain ⟨n, hn, _⟩ := h.mem_childList_iff.mp hi
      exact ⟨n, hn⟩
  · exact (hmem _).mpr (.inl hf.root)
  · intro i n p hi hn hp
    rcases (hmem i).mp hi with hi | hi
    · exact mem_append_left _ (hf.parent hi hn hp)
    · obtain ⟨n', hn', hpar⟩ := h.mem_childList_iff.mp hi
      rw [hn] at hn'
      cases hn'
      rw [hp] at hpar
      cases hpar
      exact mem_append_right _ (mem_singleton_self _)
  · intro i n p hp hn hpar
    rw [hmem]
    rcases mem_append.mp hp with hp | hp
    · exact .inl (hf.children hp hn hpar)
    · rw [mem_singleton] at hp
      subst hp
      exact .inr (h.mem_childList_iff.mpr ⟨n, hn, hpar⟩)

theorem Frontier.length_le (h : s.Shape word) {popped stack : List Nat}
    (hf : s.Frontier popped stack) : (popped ++ stack).length ≤ s.counter := by
  have hsub : popped ++ stack ⊆ List.range s.counter := by
    intro i hi
    obtain ⟨n, hn⟩ := hf.live i hi
    exact mem_range.mpr (h.fresh hn)
  have hle := (subperm_of_subset hf.nodup hsub).length_le
  rwa [length_range] at hle

theorem visit_spec (h : s.Shape word) : ∀ (fuel : Nat) {popped stack : List Nat},
    s.Frontier popped stack → s.counter + 1 ≤ popped.length + fuel →
      (popped ++ s.visit order fuel stack).Nodup ∧
        ∀ i, i ∈ popped ++ s.visit order fuel stack ↔ ∃ n, s.nodes i = some n := by
  intro fuel
  induction fuel with
  | zero =>
    intro popped stack hf hfuel
    have hle := hf.length_le h
    rw [length_append] at hle
    omega
  | succ fuel ih =>
    intro popped stack hf hfuel
    cases stack with
    | nil =>
      refine ⟨hf.nodup, fun i => ⟨hf.live i, ?_⟩⟩
      rintro ⟨n, hn⟩
      refine h.trie.induction_on (P := fun i => i ∈ popped ++ s.visit order (fuel + 1) [])
        hf.root ?_ i n.cell (heap_at hn)
      intro j c p hj hp _ hmem
      obtain ⟨m, hm, rfl⟩ := heap_some hj
      rw [visit, append_nil] at hmem
      exact hf.children hmem hm hp
    | cons curr stack =>
      have hrec := ih (hf.pop h order) (by
        rw [length_append, length_singleton]
        omega)
      rw [append_assoc, singleton_append] at hrec
      exact hrec

variable (order) in
theorem visited_spec (h : s.Shape word) : (s.visited order).Nodup ∧
    ∀ i, i ∈ s.visited order ↔ ∃ n, s.nodes i = some n := by
  obtain ⟨r, hr, hpar, _⟩ := h.root
  have hstart : s.Frontier [] [root] := by
    refine ⟨nodup_singleton _, ?_, mem_singleton_self _, ?_, ?_⟩
    · intro i hi
      rw [nil_append, mem_singleton] at hi
      exact ⟨r, hi ▸ hr⟩
    · intro i n p hi hn hp
      rw [nil_append, mem_singleton] at hi
      subst hi
      exact absurd rfl (h.ne_root hn hp)
    · intro i n p hp
      exact absurd hp not_mem_nil
  exact visit_spec h (s.counter + 1) hstart (by simp)

/-! ## Section 3: The sizes -/

theorem lookup_charge (k : Nat) (t : String) : ∀ (ts : List String)
    (sizes : Finmap fun _ : String => Nat), ts.Nodup →
    (ts.foldl (fun sizes t => sizes.insert t ((sizes.lookup t).getD 0 + k)) sizes).lookup t =
      if t ∈ ts then some ((sizes.lookup t).getD 0 + k) else sizes.lookup t := by
  intro ts
  induction ts with
  | nil => exact fun _ _ => by simp
  | cons x ts ih =>
    intro sizes hnodup
    obtain ⟨hx, hnodup⟩ := nodup_cons.mp hnodup
    rw [foldl_cons, ih _ hnodup]
    by_cases ht : t = x
    · subst ht
      simp [hx]
    · simp [ht, Finmap.lookup_insert_of_ne _ ht]

theorem lookup_sizes (t : String) : ∀ (l : List Nat) (sizes : Finmap fun _ : String => Nat),
    (l.foldl (fun sizes i =>
      match s.nodes i with
      | none => sizes
      | some n => (order.tenants.list n.tenantLastAccessTime.keys).foldl (fun sizes t =>
          sizes.insert t ((sizes.lookup t).getD 0 + n.text.charCount)) sizes) sizes).lookup t =
      if ∃ i ∈ l, s.HasTenant i t
      then some ((sizes.lookup t).getD 0 + (l.map fun i => charsFor t (s.nodes i)).sum)
      else sizes.lookup t := by
  intro l
  induction l with
  | nil => exact fun _ => by simp
  | cons i l ih =>
    intro sizes
    rw [foldl_cons, ih]
    cases hi : s.nodes i with
    | none =>
      have hno : ¬ s.HasTenant i t := by
        rintro ⟨n, hn, _⟩
        rw [hi] at hn
        cases hn
      simp [hno, charsFor, hi]
    | some n =>
      have hmem : t ∈ order.tenants.list n.tenantLastAccessTime.keys ↔ s.HasTenant i t := by
        rw [order.tenants.mem, Finmap.mem_keys, hasTenant_iff hi]
      rw [lookup_charge _ _ _ _ (order.tenants.nodup _)]
      by_cases ht : s.HasTenant i t
      · have hchars : charsFor t (s.nodes i) = n.text.charCount := by
          simp [hi, charsFor, (hasTenant_iff hi t).mp ht]
        have hsome : ∃ j ∈ i :: l, s.HasTenant j t := ⟨i, mem_cons_self .., ht⟩
        rw [if_pos (hmem.mpr ht), if_pos hsome, map_cons, sum_cons, hchars]
        by_cases hl : ∃ j ∈ l, s.HasTenant j t
        · rw [if_pos hl, Option.getD_some, Nat.add_assoc]
        · have hrest : (l.map fun i => charsFor t (s.nodes i)).sum = 0 := by
            apply sum_eq_zero
            intro x hx
            obtain ⟨j, hj, rfl⟩ := mem_map.mp hx
            exact charsFor_eq_zero fun htj => hl ⟨j, hj, htj⟩
          rw [if_neg hl, hrest, Nat.add_zero]
      · have hchars : charsFor t (s.nodes i) = 0 := charsFor_eq_zero ht
        have hiff : (∃ j ∈ i :: l, s.HasTenant j t) ↔ ∃ j ∈ l, s.HasTenant j t := by simp [ht]
        rw [if_neg fun hin => ht (hmem.mp hin), map_cons, sum_cons, hchars, Nat.zero_add]
        simp only [hiff]

theorem sum_visited (h : s.Shape word) (t : String) :
    ((s.visited order).map fun i => charsFor t (s.nodes i)).sum = s.used t := by
  obtain ⟨hnodup, hmem⟩ := visited_spec order h
  rw [← sum_toFinset _ hnodup]
  unfold used nodeSum
  apply Finset.sum_subset
  · intro i hi
    obtain ⟨n, hn⟩ := (hmem i).mp (mem_toFinset.mp hi)
    exact Finset.mem_range.mpr (h.fresh hn)
  · intro i _ hi
    apply charsFor_eq_zero
    intro ht
    exact hi (mem_toFinset.mpr ((hmem i).mpr ht.node))

theorem getUsedSizePerTenant_eq (h : s.Inv word) (order : DashOrder) :
    s.getUsedSizePerTenant order = s.tenantCharCount := by
  apply Finmap.ext_lookup
  intro t
  refine (lookup_sizes t (s.visited order) ∅).trans ?_
  rw [sum_visited h.shape]
  have hroot : (∃ i ∈ s.visited order, s.HasTenant i t) ↔ s.HasTenant root t := by
    constructor
    · rintro ⟨i, _, ht⟩
      exact h.tenanted.root_has h.shape ht
    · exact fun ht => ⟨root, ((visited_spec order h.shape).2 root).mpr ht.node, ht⟩
  by_cases ht : s.HasTenant root t
  · rw [if_pos (hroot.mpr ht), (h.counts t).present ht]
    simp
  · rw [if_neg fun hin => ht (hroot.mp hin), (h.counts t).absent ht]
    simp

end Tree

end Sglang.Gateway
