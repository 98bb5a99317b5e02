import Sglang.Gateway.TenantTreeInvariant

/-!
# Insertion into the Routing Tree

Each step of `insert` keeps the invariant: the tenant of the insertion is a tenant of the node that
the loop has reached, so it may be given to a node below it.

- `grant_spec`, `addLeaf_spec`, `splitNode_spec`: the steps,
- `insert_spec`: an insertion returns and adds one text with its beginnings.
-/

namespace Sglang.Gateway

open List Option Function
open Lib
open Lib.PageTrie

namespace Tree

variable {s : Tree} {word : Nat → List Char} {tenant : String}

/-! ## Section 1: Accounts -/

theorem countOk_charge {s' : Tree} {n : Nat} (h : ∀ t, s.CountOk t) (ht : s.HasTenant root tenant)
    (hmap : s'.tenantCharCount = (s.addChars tenant n).tenantCharCount)
    (hroot : ∀ t, s'.HasTenant root t ↔ s.HasTenant root t)
    (hused : ∀ t, s'.used t = s.used t + if t = tenant then n else 0) (t : String) :
    s'.CountOk t := by
  by_cases heq : t = tenant
  · subst heq
    refine ⟨fun _ => ?_, fun hno => absurd ((hroot t).mpr ht) hno⟩
    rw [hmap, hused, if_pos rfl]
    simp [addChars, (h t).present ht]
  · have hlook : s'.tenantCharCount.lookup t = s.tenantCharCount.lookup t := by
      rw [hmap]
      exact Finmap.lookup_insert_of_ne _ heq
    refine ⟨fun hyes => ?_, fun hno => ?_⟩
    · rw [hlook, hused, if_neg heq, Nat.add_zero]
      exact (h t).present ((hroot t).mp hyes)
    · rw [hlook]
      exact (h t).absent fun hyes => hno ((hroot t).mpr hyes)

/-! ## Section 2: A tenant for a node -/

theorem grant_spec (h : s.Inv word) {i p : Nat} {n : Node} (hi : s.nodes i = some n)
    (hp : n.parent = some p) (hpt : s.HasTenant p tenant) (hnew : tenant ∉ n.tenantLastAccessTime)
    (epoch : Nat) :
    let s' := (s.addChars tenant n.text.charCount).setNode i (n.access tenant epoch)
    s'.Inv word ∧ ∀ j t, s'.HasTenant j t ↔ s.HasTenant j t ∨ j = i ∧ t = tenant := by
  intro s'
  have hmap : s'.tenantCharCount = (s.addChars tenant n.text.charCount).tenantCharCount := rfl
  have hheap : s'.heap = s.heap := heap_setNode hi rfl
  have htenants : ∀ j t, s'.HasTenant j t ↔ s.HasTenant j t ∨ j = i ∧ t = tenant := by
    intro j t
    have hset := @hasTenant_setNode s i (n.access tenant epoch) j t
    refine hset.trans ?_
    by_cases hj : j = i
    · subst hj
      rw [if_pos rfl, mem_access, hasTenant_iff hi]
      tauto
    · rw [if_neg hj]
      tauto
  have hroot : i ≠ root := h.shape.ne_root hi hp
  have hshape := shape_setNode (n.access tenant epoch) h.shape hi rfl
  refine ⟨⟨⟨hshape.trie, hshape.fresh⟩, tenanted_of ?_ ?_, ?_⟩, htenants⟩
  · intro j q c t hj hq ht
    rw [hheap] at hj
    rw [htenants] at ht ⊢
    rcases ht with ht | ⟨rfl, rfl⟩
    · exact .inl (h.tenanted.below_cell hj hq ht)
    · rw [heap_at hi] at hj
      cases hj
      rw [show n.cell.parent = n.parent from rfl, hp] at hq
      cases hq
      exact .inl hpt
  · intro j c hj hroot
    rw [hheap] at hj
    obtain ⟨t, ht⟩ := h.tenanted.held_cell hj hroot
    exact ⟨t, (htenants j t).mpr (.inl ht)⟩
  · apply countOk_charge h.counts (h.tenanted.root_has h.shape hpt) hmap
    · intro t
      rw [htenants]
      simp [hroot.symm]
    · intro t
      have hsum := used_setNode (n.access tenant epoch) h.shape hi t
      have hsame : s'.used t = (s.setNode i (n.access tenant epoch)).used t := rfl
      rw [hsame]
      by_cases heq : t = tenant
      · subst heq
        simp only [charsFor, hnew, if_false, mem_access, true_or, if_true] at hsum
        rw [if_pos rfl]
        exact hsum
      · simp only [charsFor, mem_access, heq, false_or] at hsum
        rw [if_neg heq]
        exact Nat.add_right_cancel hsum

theorem holds_grant {s' : Tree} {i : Nat}
    (hgrant : ∀ j t, s'.HasTenant j t ↔ s.HasTenant j t ∨ j = i ∧ t = tenant) (t : String)
    (w : List Char) :
    s'.Holds word t w ↔ s.Holds word t w ∨ t = tenant ∧ w <+: word i := by
  constructor
  · rintro ⟨j, hj, hw⟩
    rcases (hgrant j t).mp hj with hj | ⟨rfl, rfl⟩
    · exact .inl ⟨j, hj, hw⟩
    · exact .inr ⟨rfl, hw⟩
  · rintro (⟨j, hj, hw⟩ | ⟨rfl, hw⟩)
    · exact ⟨j, (hgrant j t).mpr (.inl hj), hw⟩
    · exact ⟨i, (hgrant i t).mpr (.inr ⟨rfl, rfl⟩), hw⟩

theorem attach_spec (h : s.Inv word) {i p : Nat} {n : Node} (hi : s.nodes i = some n)
    (hp : n.parent = some p) (hpt : s.HasTenant p tenant) :
    ∃ s', s.attach tenant i = some s' ∧ s'.Inv word ∧
      ∀ j t, s'.HasTenant j t ↔ s.HasTenant j t ∨ j = i ∧ t = tenant := by
  by_cases hmem : tenant ∈ n.tenantLastAccessTime
  · refine ⟨s, by simp [attach, hi, hmem], h, ?_⟩
    intro j t
    constructor
    · exact .inl
    · rintro (hj | ⟨rfl, rfl⟩)
      · exact hj
      · exact ⟨n, hi, hmem⟩
  · obtain ⟨hinv, htenants⟩ := grant_spec h hi hp hpt hmem 0
    exact ⟨_, by simp [attach, hi, hmem], hinv, htenants⟩

/-! ## Section 3: A new leaf -/

def leafNode (prev : Nat) (remaining : List Char) (tenant : String) (epoch : Nat) : Node :=
  Node.access ⟨∅, .new remaining, ∅, some prev, some tenant⟩ tenant epoch

theorem mem_leafNode {prev : Nat} {remaining : List Char} {epoch : Nat} (t : String) :
    t ∈ (leafNode prev remaining tenant epoch).tenantLastAccessTime ↔ t = tenant := by
  simp [leafNode, mem_access, Finmap.notMem_empty]

theorem addLeaf_spec (h : s.Inv word) {prev : Nat} {p : Node} (hp : s.nodes prev = some p)
    (hpt : s.HasTenant prev tenant) {firstChar : Char} (rest : List Char)
    (hfree : p.children.lookup firstChar = none) (epoch : Nat) :
    let s' := s.addLeaf prev p firstChar (firstChar :: rest) tenant epoch
    let word' := update word s.counter (word prev ++ firstChar :: rest)
    s'.Inv word' ∧
      ∀ j t, s'.HasTenant j t ↔ s.HasTenant j t ∨ j = s.counter ∧ t = tenant := by
  intro s' word'
  have hlive : s.counter ≠ prev := fun heq => absurd (h.shape.fresh hp) (by omega)
  have hdead := heap_none h.shape.dead
  -- the faithful step is the trie's `addLeaf` on the heap of cells
  have hheap : s'.heap = PageTrie.addLeaf firstOf 1 s.heap prev p.cell s.counter
      (firstChar :: rest) := by
    funext j
    simp only [PageTrie.addLeaf]
    by_cases hj : j = prev
    · subst hj
      simp only [s', addLeaf, addChars, heap, update_self, map_some]
      congr 1
      simp only [Node.cell, Cell.setChild, Cell.mk.injEq, true_and]
      funext c
      by_cases hc : c = firstChar
      · subst hc
        simp [firstOf]
      · simp [firstOf, hc]
    · by_cases hx : j = s.counter
      · subst hx
        simp [s', addLeaf, addChars, heap, hj, Node.access, Node.cell, leafCell, NodeText.new]
      · simp [s', addLeaf, addChars, heap, hj, hx]
  have htenants : ∀ j t, s'.HasTenant j t ↔ s.HasTenant j t ∨ j = s.counter ∧ t = tenant := by
    intro j t
    by_cases hj : j = prev
    · subst hj
      simp [HasTenant, s', addLeaf, addChars, hp, hlive.symm]
    · by_cases hx : j = s.counter
      · subst hx
        have hnew : s'.nodes s.counter =
            some (leafNode prev (firstChar :: rest) tenant epoch) := by
          simp [s', addLeaf, addChars, hj, leafNode]
        rw [hasTenant_iff hnew, mem_leafNode]
        simp [HasTenant, h.shape.dead]
      · simp [HasTenant, s', addLeaf, addChars, hj, hx]
  have hmap : s'.tenantCharCount = (s.addChars tenant (rest.length + 1)).tenantCharCount := rfl
  have htrie : WellFormed firstOf 1 root s'.heap word' := by
    rw [hheap]
    exact h.shape.trie.addLeaf (heap_at hp) hdead (cons_ne_nil _ _) (one_dvd _) hfree
  refine ⟨⟨⟨htrie, ?_⟩, tenanted_of ?_ ?_, ?_⟩, htenants⟩
  · -- the ids
    intro j n hj
    change j < s.counter + 1
    by_cases hx : j = s.counter
    · omega
    · obtain ⟨c, hc, _, _⟩ := addLeaf_old (heap_at hp) hx (hheap ▸ heap_at hj)
      obtain ⟨m, hm, _⟩ := heap_some hc
      have := h.shape.fresh hm
      omega
  · -- a tenant of a node holds its parent: the leaf has the tenant of `prev`
    intro j q c t hj hq ht
    rw [htenants] at ht ⊢
    left
    by_cases hx : j = s.counter
    · subst hx
      rw [hheap, addLeaf_new hlive.symm] at hj
      cases hj
      cases hq
      rcases ht with ht | ⟨_, rfl⟩
      · obtain ⟨m, hm⟩ := ht.node
        rw [h.shape.dead] at hm
        cases hm
      · exact hpt
    · rw [hheap] at hj
      obtain ⟨c', hc', hpar, _⟩ := addLeaf_old (heap_at hp) hx hj
      rcases ht with ht | ⟨rfl, _⟩
      · exact h.tenanted.below_cell hc' (hpar.trans hq) ht
      · exact absurd rfl hx
  · intro j c hj hroot
    by_cases hx : j = s.counter
    · exact ⟨tenant, (htenants j tenant).mpr (.inr ⟨hx, rfl⟩)⟩
    · rw [hheap] at hj
      obtain ⟨c', hc', _, _⟩ := addLeaf_old (heap_at hp) hx hj
      obtain ⟨t, ht⟩ := h.tenanted.held_cell hc' hroot
      exact ⟨t, (htenants j t).mpr (.inl ht)⟩
  · -- the counters: the leaf adds its text to `tenant`, its parent keeps its own
    apply countOk_charge h.counts (h.tenanted.root_has h.shape hpt) hmap
    · intro t
      rw [htenants]
      obtain ⟨r, hr, _⟩ := h.shape.root
      have := h.shape.fresh hr
      have hne : root ≠ s.counter := by omega
      simp [hne]
    · intro t
      have hx : s.counter < s.counter + 1 := Nat.lt_succ_self _
      have hprev : prev < s.counter + 1 := Nat.lt_succ_of_lt (h.shape.fresh hp)
      have hsum := nodeSum_update (charsFor t) s.nodes hx
        (some (leafNode prev (firstChar :: rest) tenant epoch))
      have hsum' := nodeSum_update (charsFor t) (update s.nodes s.counter
        (some (leafNode prev (firstChar :: rest) tenant epoch)))
        hprev (some { p with children := p.children.insert firstChar s.counter })
      rw [nodeSum_succ rfl h.shape.dead, h.shape.dead] at hsum
      rw [update_of_ne hlive.symm, hp] at hsum'
      have hkeep : charsFor t (some { p with children := p.children.insert firstChar s.counter }) =
          charsFor t (some p) := rfl
      rw [hkeep] at hsum'
      have hleaf : charsFor t (some (leafNode prev (firstChar :: rest) tenant epoch)) =
          if t = tenant then rest.length + 1 else 0 := by
        simp only [charsFor, mem_leafNode]
        rfl
      rw [hleaf] at hsum
      have hnone : charsFor t none = 0 := rfl
      rw [hnone] at hsum
      change nodeSum (charsFor t) _ (s.counter + 1) = nodeSum (charsFor t) s.nodes s.counter + _
      exact (Nat.add_right_cancel hsum').trans hsum

/-! ## Section 4: A node cut in two -/

def frontNode (prev m : Nat) (matched : Node) (front : NodeText) (c : Char) : Node :=
  ⟨Finmap.singleton c m, front, matched.tenantLastAccessTime, some prev, matched.lastTenant⟩

/-- The tree after a cut of `m`, whose halves are `front` and `back`. -/
def cutTree (s : Tree) (prev : Nat) (p : Node) (firstChar : Char) (m : Nat) (matched : Node)
    (front back : NodeText) (c : Char) : Tree :=
  { s with
    nodes := update (update
      (update s.nodes s.counter (some (frontNode prev m matched front c))) m
        (some { matched with text := back, parent := some s.counter })) prev
      (some { p with children := p.children.insert firstChar s.counter })
    counter := s.counter + 1 }

theorem splitNode_eq {prev m k : Nat} {p matched : Node} {firstChar : Char} (hpos : 0 < k)
    (hlt : k < matched.text.charCount) :
    ∃ front back : NodeText, ∃ c rest, front.text = matched.text.text.take k ∧
      back.text = matched.text.text.drop k ∧ back.text = c :: rest ∧
      front.charCount + back.charCount = matched.text.charCount ∧
      s.splitNode prev p firstChar m matched k =
        some (s.cutTree prev p firstChar m matched front back c) := by
  have hlen := matched.text.count_eq
  have hne : matched.text.text.drop k ≠ [] := by
    intro hnil
    have := drop_eq_nil_iff.mp hnil
    omega
  obtain ⟨c, rest, hrest⟩ := exists_cons_of_ne_nil hne
  have hsplit : ¬ k ≥ matched.text.charCount := by omega
  refine ⟨(matched.text.splitAtChar k).1, (matched.text.splitAtChar k).2, c, rest, ?_, ?_, ?_, ?_,
    ?_⟩
  · simp [NodeText.splitAtChar, Nat.ne_of_gt hpos, hsplit]
  · simp [NodeText.splitAtChar, Nat.ne_of_gt hpos, hsplit]
  · simpa [NodeText.splitAtChar, Nat.ne_of_gt hpos, hsplit] using hrest
  · simp only [NodeText.splitAtChar, Nat.ne_of_gt hpos, hsplit, if_false, dite_false]
    omega
  · have hfirst : (matched.text.splitAtChar k).2.firstChar = some c := by
      simp [NodeText.firstChar, NodeText.splitAtChar, Nat.ne_of_gt hpos, hsplit, hrest]
    simp [splitNode, hfirst, frontNode, cutTree]

section Cut

variable {prev m k : Nat} {p matched : Node} {firstChar c : Char} {front back : NodeText}
  {rest : List Char}

theorem cutTree_front (hxp : s.counter ≠ prev) (hxm : s.counter ≠ m) :
    (s.cutTree prev p firstChar m matched front back c).nodes s.counter =
      some (frontNode prev m matched front c) := by
  simp [cutTree, hxp, hxm]

theorem cutTree_back (hmp : m ≠ prev) :
    (s.cutTree prev p firstChar m matched front back c).nodes m =
      some { matched with text := back, parent := some s.counter } := by
  simp [cutTree, hmp]

theorem cutTree_parent :
    (s.cutTree prev p firstChar m matched front back c).nodes prev =
      some { p with children := p.children.insert firstChar s.counter } := by
  simp [cutTree]

theorem cutTree_other {j : Nat} (hx : j ≠ s.counter) (hjm : j ≠ m) (hjp : j ≠ prev) :
    (s.cutTree prev p firstChar m matched front back c).nodes j = s.nodes j := by
  simp [cutTree, hx, hjm, hjp]

/-- A tenant is charged for the halves what it was charged for the whole. -/
theorem used_cutTree (h : s.Shape word) {t : String} (hp : s.nodes prev = some p)
    (hm : s.nodes m = some matched) (hmp : m ≠ prev)
    (hcount : front.charCount + back.charCount = matched.text.charCount) :
    (s.cutTree prev p firstChar m matched front back c).used t = s.used t := by
  have hxp : prev ≠ s.counter := fun heq => absurd (h.fresh hp) (by omega)
  have hxm : m ≠ s.counter := fun heq => absurd (h.fresh hm) (by omega)
  have hx : s.counter < s.counter + 1 := Nat.lt_succ_self _
  have hmlt : m < s.counter + 1 := Nat.lt_succ_of_lt (h.fresh hm)
  have hplt : prev < s.counter + 1 := Nat.lt_succ_of_lt (h.fresh hp)
  -- the three nodes that are written, one after the other
  have hfront := nodeSum_update (charsFor t) s.nodes hx (some (frontNode prev m matched front c))
  have hback := nodeSum_update (charsFor t)
    (update s.nodes s.counter (some (frontNode prev m matched front c)))
    hmlt (some { matched with text := back, parent := some s.counter })
  have hprev := nodeSum_update (charsFor t) (update
      (update s.nodes s.counter (some (frontNode prev m matched front c))) m
        (some { matched with text := back, parent := some s.counter })) hplt
    (some { p with children := p.children.insert firstChar s.counter })
  rw [nodeSum_succ rfl h.dead, h.dead] at hfront
  rw [update_of_ne hxm, hm] at hback
  rw [update_of_ne hmp.symm, update_of_ne hxp, hp] at hprev
  change nodeSum (charsFor t) _ (s.counter + 1) = nodeSum (charsFor t) s.nodes s.counter
  refine (Nat.add_right_cancel hprev).trans ?_
  have hhalves : charsFor t (some (frontNode prev m matched front c)) +
      charsFor t (some { matched with text := back, parent := some s.counter }) =
        charsFor t (some matched) := by
    by_cases ht : t ∈ matched.tenantLastAccessTime
    · simp [charsFor, frontNode, ht, hcount]
    · simp [charsFor, frontNode, ht]
  have hnone : charsFor t none = 0 := rfl
  rw [hnone] at hfront
  omega

theorem heap_cutTree (hxp : s.counter ≠ prev) (hxm : s.counter ≠ m) (hmp : m ≠ prev)
    (hhead : matched.text.text.head? = some firstChar)
    (hfront : front.text = matched.text.text.take k)
    (hback : back.text = matched.text.text.drop k) (hcons : back.text = c :: rest) :
    (s.cutTree prev p firstChar m matched front back c).heap =
      PageTrie.split firstOf 1 s.heap prev p.cell m matched.cell s.counter k := by
  have hlabel : matched.text.text.take 1 = [firstChar] := by
    cases htext : matched.text.text with
    | nil => simp [htext] at hhead
    | cons d l =>
      simp only [htext, head?_cons, Option.some.injEq] at hhead
      simp [hhead]
  funext j
  by_cases hjp : j = prev
  · -- the parent points to the front now
    subst hjp
    rw [split_parent, heap_at cutTree_parent]
    congr 1
    simp only [Node.cell, Cell.setChild, Cell.mk.injEq, true_and]
    funext d
    rw [hlabel]
    by_cases hd : d = firstChar
    · subst hd
      simp [firstOf]
    · simp [firstOf, hd]
  by_cases hjm : j = m
  · subst hjm
    rw [split_back hmp, heap_at (cutTree_back hmp)]
    simp [Node.cell, backCell, hback]
  by_cases hx : j = s.counter
  · -- the only child of the front is the back
    subst hx
    rw [split_front hxm hxp, heap_at (cutTree_front hxp hxm)]
    simp only [Node.cell, frontNode, frontCell, hfront, ← hback, hcons]
    congr 2
    funext d
    by_cases hd : d = c
    · subst hd
      simp [firstOf]
    · have hnone : (Finmap.singleton c m : Finmap fun _ : Char => Nat).lookup d = none := by
        rw [Finmap.lookup_eq_none, Finmap.mem_singleton]
        exact hd
      simp [firstOf, hd, hnone]
  · rw [split_other hx hjm hjp]
    simp only [heap, cutTree_other hx hjm hjp]

theorem hasTenant_cutTree (h : s.Shape word) (hp : s.nodes prev = some p)
    (hm : s.nodes m = some matched) (hxp : s.counter ≠ prev) (hxm : s.counter ≠ m) (hmp : m ≠ prev)
    (j : Nat) (t : String) :
    (s.cutTree prev p firstChar m matched front back c).HasTenant j t ↔
      s.HasTenant j t ∨ j = s.counter ∧ s.HasTenant m t := by
  by_cases hjp : j = prev
  · subst hjp
    rw [hasTenant_iff cutTree_parent, hasTenant_iff hp]
    simp [hxp.symm]
  by_cases hjm : j = m
  · subst hjm
    rw [hasTenant_iff (cutTree_back hmp), hasTenant_iff hm]
    simp [hxm.symm]
  by_cases hx : j = s.counter
  · subst hx
    rw [hasTenant_iff (cutTree_front hxp hxm), hasTenant_iff hm]
    simp [HasTenant, h.dead, frontNode]
  · simp [HasTenant, cutTree_other hx hjm hjp, hx]

/-- A tenant of a node is one of the node above it: above the back lies the front. -/
theorem tenanted_split (h : s.Inv word) {s' : Tree} (hp : s.nodes prev = some p)
    (hm : s.nodes m = some matched) (hpar : matched.parent = some prev) (hxp : s.counter ≠ prev)
    (hxm : s.counter ≠ m) (hmp : m ≠ prev)
    (hheap : s'.heap = PageTrie.split firstOf 1 s.heap prev p.cell m matched.cell s.counter k)
    (htenants : ∀ j t, s'.HasTenant j t ↔ s.HasTenant j t ∨ j = s.counter ∧ s.HasTenant m t) :
    s'.Tenanted := by
  refine tenanted_of ?_ ?_
  · intro j q ci t hj hq ht
    have hmt : s.HasTenant m t → s.HasTenant prev t := h.tenanted.below_cell (heap_at hm) hpar
    rw [htenants] at ht ⊢
    rw [hheap] at hj
    by_cases hx : j = s.counter
    · subst hx
      rw [split_front hxm hxp] at hj
      cases hj
      cases hq
      rcases ht with ht | ⟨_, ht⟩
      · obtain ⟨n, hn⟩ := ht.node
        rw [h.shape.dead] at hn
        cases hn
      · exact .inl (hmt ht)
    have hjt : s.HasTenant j t := ht.resolve_right fun hno => hx hno.1
    by_cases hjm : j = m
    · subst hjm
      rw [split_back hmp] at hj
      cases hj
      cases hq
      exact .inr ⟨rfl, hjt⟩
    · obtain ⟨ci', hci', hpar', _⟩ := split_old (heap_at hp) hx hjm hj
      exact .inl (h.tenanted.below_cell hci' (hpar'.trans hq) hjt)
  · -- the front is held by whoever held the node
    intro j ci hj hroot
    by_cases hx : j = s.counter
    · obtain ⟨t, ht⟩ := h.tenanted.held_cell (heap_at hm) (h.shape.ne_root hm hpar)
      exact ⟨t, (htenants j t).mpr (.inr ⟨hx, ht⟩)⟩
    · have hold : ∃ c', s.heap j = some c' := by
        by_cases hjm : j = m
        · exact ⟨_, hjm ▸ heap_at hm⟩
        · rw [hheap] at hj
          obtain ⟨c', hc', _⟩ := split_old (heap_at hp) hx hjm hj
          exact ⟨c', hc'⟩
      obtain ⟨c', hc'⟩ := hold
      obtain ⟨t, ht⟩ := h.tenanted.held_cell hc' hroot
      exact ⟨t, (htenants j t).mpr (.inl ht)⟩

theorem splitNode_spec (h : s.Inv word) (hp : s.nodes prev = some p)
    (hchild : p.children.lookup firstChar = some m) (hm : s.nodes m = some matched) (hpos : 0 < k)
    (hlt : k < matched.text.charCount) :
    ∃ s' n, s.splitNode prev p firstChar m matched k = some s' ∧
      s'.nodes s.counter = some n ∧ n.parent = some prev ∧
      s'.Inv (update word s.counter (word prev ++ matched.text.text.take k)) ∧
      ∀ j t, s'.HasTenant j t ↔ s.HasTenant j t ∨ j = s.counter ∧ s.HasTenant m t := by
  obtain ⟨front, back, c, rest, hfront, hback, hcons, hcount, heq⟩ :=
    @splitNode_eq s prev m k p matched firstChar hpos hlt
  obtain ⟨matched', hm', hpar, hhead⟩ := h.shape.child hp hchild
  rw [hm] at hm'
  cases hm'
  have hxp : s.counter ≠ prev := fun heq => absurd (h.shape.fresh hp) (by omega)
  have hxm : s.counter ≠ m := fun heq => absurd (h.shape.fresh hm) (by omega)
  have hmp : m ≠ prev := (h.shape.trie.parent_ne_self (heap_at hm) hpar).symm
  have hheap :=
    @heap_cutTree s prev m k p matched firstChar c front back rest hxp hxm hmp hhead hfront
      hback hcons
  have htenants := @hasTenant_cutTree s word prev m p matched firstChar c front back
    h.shape hp hm hxp hxm hmp
  have htrie : WellFormed firstOf 1 root (s.cutTree prev p firstChar m matched front back c).heap
      (update word s.counter (word prev ++ matched.text.text.take k)) := by
    rw [hheap]
    refine h.shape.trie.split (heap_at hp) (heap_at hm) hpar (heap_none h.shape.dead) hpos
      (one_dvd _) ?_
    change k < matched.text.text.length
    rw [← matched.text.count_eq]
    exact hlt
  refine ⟨_, _, heq, cutTree_front hxp hxm, rfl, ⟨⟨htrie, ?_⟩, ?_, ?_⟩, htenants⟩
  · -- every node but the new one was there before
    intro j n hj
    change j < s.counter + 1
    by_cases hx : j = s.counter
    · omega
    by_cases hjm : j = m
    · have := h.shape.fresh hm
      omega
    · obtain ⟨ci, hci, _, _⟩ := split_old (heap_at hp) hx hjm (hheap ▸ heap_at hj)
      obtain ⟨n', hn', _⟩ := heap_some hci
      have := h.shape.fresh hn'
      omega
  · exact tenanted_split h hp hm hpar hxp hxm hmp hheap htenants
  · -- the text of the cut node is shared out between its halves
    intro t
    have hused :=
      @used_cutTree s word prev m p matched firstChar c front back h.shape t hp hm hmp hcount
    have hroot : (s.cutTree prev p firstChar m matched front back c).HasTenant root t ↔
        s.HasTenant root t := by
      obtain ⟨r, hr, _⟩ := h.shape.root
      have := h.shape.fresh hr
      have hne : root ≠ s.counter := by omega
      rw [htenants]
      simp [hne]
    refine ⟨fun hyes => ?_, fun hno => ?_⟩
    · rw [hused]
      exact (h.counts t).present (hroot.mp hyes)
    · exact (h.counts t).absent fun hyes => hno (hroot.mpr hyes)

end Cut

/-! ## Section 5: The loop -/

theorem HasTenant.ne_counter (h : s.Shape word) {j : Nat} {t : String} (hj : s.HasTenant j t) :
    j ≠ s.counter := by
  obtain ⟨n, hn⟩ := hj.node
  exact (h.fresh hn).ne

theorem holds_split (h : s.Inv word) {s' : Tree} {m : Nat} {front : List Char}
    (hcut : ∀ j t, s'.HasTenant j t ↔ s.HasTenant j t ∨ j = s.counter ∧ s.HasTenant m t)
    (hpre : front <+: word m) (t : String) (w : List Char) :
    s'.Holds (update word s.counter front) t w ↔ s.Holds word t w := by
  constructor
  · rintro ⟨j, hj, hw⟩
    rcases (hcut j t).mp hj with hj | ⟨rfl, hm⟩
    · rw [update_of_ne (hj.ne_counter h.shape)] at hw
      exact ⟨j, hj, hw⟩
    · rw [update_self] at hw
      exact ⟨m, hm, hw.trans hpre⟩
  · rintro ⟨j, hj, hw⟩
    refine ⟨j, (hcut j t).mpr (.inl hj), ?_⟩
    rwa [update_of_ne (hj.ne_counter h.shape)]

theorem holds_addLeaf (h : s.Inv word) {s' : Tree} {text : List Char}
    (hnew : ∀ j t, s'.HasTenant j t ↔ s.HasTenant j t ∨ j = s.counter ∧ t = tenant) (t : String)
    (w : List Char) :
    s'.Holds (update word s.counter text) t w ↔
      s.Holds word t w ∨ t = tenant ∧ w <+: text := by
  rw [holds_grant hnew, update_self]
  apply or_congr_left
  constructor
  · rintro ⟨j, hj, hw⟩
    rw [update_of_ne (hj.ne_counter h.shape)] at hw
    exact ⟨j, hj, hw⟩
  · rintro ⟨j, hj, hw⟩
    refine ⟨j, hj, ?_⟩
    rwa [update_of_ne (hj.ne_counter h.shape)]

theorem enter_spec (h : s.Inv word) {i p : Nat} {n : Node} (hi : s.nodes i = some n)
    (hp : n.parent = some p) (hpt : s.HasTenant p tenant) :
    ∃ s', s.attach tenant i = some s' ∧ s'.Inv word ∧ s'.HasTenant i tenant ∧
      ∀ t w, s'.Holds word t w ↔ s.Holds word t w ∨ t = tenant ∧ w <+: word i := by
  obtain ⟨s', heq, hinv, htenants⟩ := attach_spec h hi hp hpt
  exact ⟨s', heq, hinv, (htenants i tenant).mpr (.inr ⟨rfl, rfl⟩), holds_grant htenants⟩

theorem insertLoop_spec (epoch : Nat) : ∀ (fuel : Nat) {s : Tree} {word : Nat → List Char}
    {prev : Nat} {remaining : List Char}, s.Inv word → s.HasTenant prev tenant →
    remaining.length < fuel →
    ∃ s' word', insertLoop tenant epoch fuel s prev remaining = some s' ∧ s'.Inv word' ∧
      ∀ t w, s'.Holds word' t w ↔
        s.Holds word t w ∨ t = tenant ∧ w <+: word prev ++ remaining := by
  intro fuel
  -- the induction is on the fuel: every turn reads a character or more
  induction fuel with
  | zero => exact fun _ _ hfuel => absurd hfuel (Nat.not_lt_zero _)
  | succ fuel ih =>
    intro s word prev remaining h hpt hfuel
    obtain ⟨p, hp, hmem⟩ := hpt
    cases remaining with
    | nil =>
      -- the text ends at `prev`, which has the tenant already
      obtain ⟨hinv, htenants⟩ := h.touch hp (sameTenants_access hmem epoch)
      refine ⟨_, word, by simp [insertLoop, hp], hinv, ?_⟩
      intro t w
      simp only [Holds, htenants, append_nil]
      constructor
      · exact .inl
      · rintro (hw | ⟨rfl, hw⟩)
        · exact hw
        · exact ⟨prev, ⟨p, hp, hmem⟩, hw⟩
    | cons firstChar rest =>
      simp only [length_cons] at hfuel
      cases hchild : p.children.lookup firstChar with
      | none =>
        -- no child starts with the character: the rest becomes a leaf
        obtain ⟨hinv, htenants⟩ := addLeaf_spec h hp ⟨p, hp, hmem⟩ rest hchild epoch
        refine ⟨_, _, by simp [insertLoop, hp, hchild], hinv, ?_⟩
        exact holds_addLeaf h htenants
      | some m =>
        obtain ⟨matched, hm, hpar, hhead⟩ := h.shape.child hp hchild
        have hwordm := h.shape.word_child hm hpar
        obtain ⟨l, hl⟩ : ∃ l, matched.text.text = firstChar :: l := by
          cases htext : matched.text.text with
          | nil => simp [htext] at hhead
          | cons d l =>
            simp only [htext, head?_cons, Option.some.injEq] at hhead
            exact ⟨l, by rw [hhead]⟩
        set k := lcp (firstChar :: rest) matched.text.text with hk
        have hagree : (firstChar :: rest).take k = matched.text.text.take k := take_lcp_eq _ _
        have hpos : 0 < k := by
          rw [hk, hl]
          simp [lcp]
        have hshort : ((firstChar :: rest).drop k).length < fuel := by
          rw [length_drop, length_cons]
          omega
        by_cases hlt : k < matched.text.charCount
        · -- the text leaves the node inside its label
          obtain ⟨s₁, n, heq₁, hn, hnp, hinv₁, hcut⟩ :=
            splitNode_spec h hp hchild hm hpos hlt
          have hfront : word prev ++ matched.text.text.take k <+: word m := by
            rw [hwordm]
            exact (prefix_append_right_inj _).mpr (List.take_prefix _ _)
          obtain ⟨s₂, heq₂, hinv₂, ht₂, hholds₂⟩ :=
            enter_spec hinv₁ hn hnp ((hcut prev tenant).mpr (.inl ⟨p, hp, hmem⟩))
          obtain ⟨s₃, word₃, heq₃, hinv₃, hholds₃⟩ := ih hinv₂ ht₂ hshort
          refine ⟨s₃, word₃, ?_, hinv₃, ?_⟩
          · simp [insertLoop, hp, hchild, hm, sharedPrefixCount_eq, ← hk, hlt, heq₁, heq₂,
              advanceByChars_eq, heq₃]
          · intro t w
            rw [hholds₃, hholds₂, holds_split h hcut hfront, update_self, ← hagree,
              append_assoc, take_append_drop]
            have hup : w <+: word prev ++ (firstChar :: rest).take k →
                w <+: word prev ++ firstChar :: rest := fun hw =>
              hw.trans ((prefix_append_right_inj _).mpr (List.take_prefix _ _))
            tauto
        · -- the whole label is read
          have hall : k = matched.text.charCount := by
            have := lcp_le_right (firstChar :: rest) matched.text.text
            rw [← hk, ← matched.text.count_eq] at this
            omega
          have htake : matched.text.text = (firstChar :: rest).take k := by
            rw [hagree, hall, matched.text.count_eq, take_length]
          obtain ⟨s₂, heq₂, hinv₂, ht₂, hholds₂⟩ := enter_spec h hm hpar ⟨p, hp, hmem⟩
          obtain ⟨s₃, word₃, heq₃, hinv₃, hholds₃⟩ := ih hinv₂ ht₂ hshort
          refine ⟨s₃, word₃, ?_, hinv₃, ?_⟩
          · simp [insertLoop, hp, hchild, hm, sharedPrefixCount_eq, ← hk, hlt, heq₂,
              advanceByChars_eq, heq₃]
          · intro t w
            have hword : word m = word prev ++ (firstChar :: rest).take k := by
              rw [hwordm, ← htake]
            rw [hholds₃, hholds₂, hword, append_assoc, take_append_drop]
            have hup : w <+: word prev ++ (firstChar :: rest).take k →
                w <+: word prev ++ firstChar :: rest := fun hw =>
              hw.trans ((prefix_append_right_inj _).mpr (List.take_prefix _ _))
            tauto

/-! ## Section 6: `insert` -/

theorem ensureTenant_spec (h : s.Inv word) (tenant : String) :
    ∃ s', s.ensureTenant tenant = some s' ∧ s'.Inv word ∧ s'.HasTenant root tenant ∧
      ∀ j t, s'.HasTenant j t ↔ s.HasTenant j t ∨ j = root ∧ t = tenant := by
  obtain ⟨r, hr, hrpar, hrtext⟩ := h.shape.root
  by_cases hmem : tenant ∈ r.tenantLastAccessTime
  · -- the root has the tenant: nothing changes
    have hcount : tenant ∈ s.tenantCharCount := by
      rw [Finmap.mem_iff]
      exact ⟨_, (h.counts tenant).present ⟨r, hr, hmem⟩⟩
    refine ⟨s, by simp [ensureTenant, hr, hmem, hcount], h, ⟨r, hr, hmem⟩, ?_⟩
    intro j t
    constructor
    · exact .inl
    · rintro (hj | ⟨rfl, rfl⟩)
      · exact hj
      · exact ⟨r, hr, hmem⟩
  · have hno : ¬ s.HasTenant root tenant := fun hyes => hmem ((hasTenant_iff hr tenant).mp hyes)
    have hcount : tenant ∉ s.tenantCharCount :=
      Finmap.lookup_eq_none.mp ((h.counts tenant).absent hno)
    set s' : Tree := { s.setNode root (r.access tenant 0) with
      tenantCharCount := s.tenantCharCount.insert tenant 0 } with hs'
    have hheap : s'.heap = s.heap := heap_setNode hr rfl
    have htenants : ∀ j t, s'.HasTenant j t ↔ s.HasTenant j t ∨ j = root ∧ t = tenant := by
      intro j t
      have hset := @hasTenant_setNode s root (r.access tenant 0) j t
      refine hset.trans ?_
      by_cases hj : j = root
      · subst hj
        rw [if_pos rfl, mem_access, hasTenant_iff hr]
        tauto
      · rw [if_neg hj]
        tauto
    -- the root has no text, so what the tenants use stays
    have hused : ∀ t, s'.used t = s.used t := by
      intro t
      have hsum := used_setNode (r.access tenant 0) h.shape hr t
      have hzero : r.text.charCount = 0 := by rw [r.text.count_eq, hrtext]; rfl
      have hchars : ∀ n : Node, n.text.charCount = 0 → charsFor t (some n) = 0 := by
        intro n hn
        simp [charsFor, hn]
      rw [hchars r hzero, hchars (r.access tenant 0) hzero] at hsum
      exact hsum
    have hshape := shape_setNode (r.access tenant 0) h.shape hr rfl
    refine ⟨s', ?_, ⟨⟨hshape.trie, hshape.fresh⟩, tenanted_of ?_ ?_, ?_⟩,
      (htenants root tenant).mpr (.inr ⟨rfl, rfl⟩), htenants⟩
    · have hkeep : tenant ∉ (s.setNode root (r.access tenant 0)).tenantCharCount := hcount
      simp only [ensureTenant, hr, bind_eq_bind, bind_some, hmem, if_false, hkeep]
      rfl
    · intro j p c t hj hp ht
      rw [hheap] at hj
      rw [htenants] at ht ⊢
      rcases ht with ht | ⟨rfl, _⟩
      · exact .inl (h.tenanted.below_cell hj hp ht)
      · exact absurd rfl (h.shape.trie.ne_root_of_parent hj hp)
    · intro j c hj hroot
      rw [hheap] at hj
      obtain ⟨t, ht⟩ := h.tenanted.held_cell hj hroot
      exact ⟨t, (htenants j t).mpr (.inl ht)⟩
    · intro t
      by_cases heq : t = tenant
      · subst heq
        refine ⟨fun _ => ?_, fun hnot => absurd ((htenants root t).mpr (.inr ⟨rfl, rfl⟩)) hnot⟩
        rw [hused, used_eq_zero h.tenanted h.shape hno]
        exact Finmap.lookup_insert _
      · have hlook : s'.tenantCharCount.lookup t = s.tenantCharCount.lookup t :=
          Finmap.lookup_insert_of_ne _ heq
        have hroot : s'.HasTenant root t ↔ s.HasTenant root t := by
          rw [htenants]
          simp [heq]
        refine ⟨fun hyes => ?_, fun hnot => ?_⟩
        · rw [hlook, hused]
          exact (h.counts t).present (hroot.mp hyes)
        · rw [hlook]
          exact (h.counts t).absent fun hyes => hnot (hroot.mpr hyes)

/-- An insertion returns, keeps the invariant and adds the text with its beginnings. -/
theorem insert_spec (h : s.Inv word) (epoch : Nat) (text : List Char) (tenant : String) :
    ∃ s' word', s.insert epoch text tenant = some s' ∧ s'.Inv word' ∧
      ∀ t w, s'.Holds word' t w ↔ s.Holds word t w ∨ t = tenant ∧ w <+: text := by
  obtain ⟨s₁, heq₁, hinv₁, ht₁, htenants₁⟩ := ensureTenant_spec h tenant
  obtain ⟨s₂, word₂, heq₂, hinv₂, hholds₂⟩ :=
    insertLoop_spec epoch (text.length + 1) hinv₁ ht₁ (Nat.lt_succ_self _)
  refine ⟨s₂, word₂, by simp [insert, heq₁, heq₂], hinv₂, ?_⟩
  intro t w
  rw [hholds₂, holds_grant htenants₁, h.shape.word_root, nil_append]
  have hup : w <+: [] → w <+: text := fun hw => hw.trans nil_prefix
  tauto

end Tree

end Sglang.Gateway
