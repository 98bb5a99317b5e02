import Sglang.Gateway.TenantTreeWalk

/-!
# Tenants that Leave a Node

Eviction and removal take a tenant from one of its leaves: a node of the tenant with no child of the
tenant. A node that loses its last tenant has no children, so it is removed from the tree as well.

- `LeafAt`: the leaves of a tenant,
- `dropTenant_spec`: what is left after a tenant leaves a node,
- `leafAt_drop`: its leaves afterwards.
-/

namespace Sglang.Gateway

open Option Function
open Lib
open Lib.PageTrie

namespace Tree

variable {s : Tree} {word : Nat → List Char} {tenant : String}

/-! ## Section 1: Leaves of a tenant -/

def ChildOf (s : Tree) (j i : Nat) : Prop := ∃ n, s.nodes j = some n ∧ n.parent = some i

/-- A node of the tenant with no child of the tenant. -/
def LeafAt (s : Tree) (i : Nat) (tenant : String) : Prop :=
  s.HasTenant i tenant ∧ ∀ j, s.ChildOf j i → ¬ s.HasTenant j tenant

theorem ChildOf.cell {j i : Nat} (h : s.ChildOf j i) :
    ∃ c, s.heap j = some c ∧ c.parent = some i := by
  obtain ⟨n, hn, hp⟩ := h
  exact ⟨n.cell, heap_at hn, hp⟩

theorem ChildOf.of_cell {j i : Nat} {c : Cell Char Char} (hc : s.heap j = some c)
    (hp : c.parent = some i) : s.ChildOf j i := by
  obtain ⟨n, hn, rfl⟩ := heap_some hc
  exact ⟨n, hn, hp⟩

theorem childHas_iff (h : s.Shape word) {i : Nat} {n : Node} (hi : s.nodes i = some n)
    (t : String) : s.ChildHas n t ↔ ∃ j, s.ChildOf j i ∧ s.HasTenant j t := by
  unfold ChildHas
  constructor
  · rintro ⟨c, _, hany⟩
    cases hc : n.children.lookup c with
    | none => simp [hc] at hany
    | some j =>
      obtain ⟨m, hm, hpar, _⟩ := h.child hi hc
      simp only [hc, bind_some, hm, any_some, decide_eq_true_eq] at hany
      exact ⟨j, ⟨m, hm, hpar⟩, m, hm, hany⟩
  · rintro ⟨j, ⟨m, hm, hpar⟩, ht⟩
    obtain ⟨p, pn, hp, hpn, hfile⟩ := h.parent hm (h.ne_root hm hpar)
    rw [hpar] at hp
    cases hp
    rw [hi] at hpn
    cases hpn
    refine ⟨firstOf (m.text.text.take 1), ?_, ?_⟩
    · rw [Finmap.mem_keys, Finmap.mem_iff]
      exact ⟨j, hfile⟩
    · rw [hfile, bind_some, hm, any_some, decide_eq_true_eq]
      exact (hasTenant_iff hm t).mp ht

theorem leafAt_iff (h : s.Shape word) {i : Nat} {n : Node} (hi : s.nodes i = some n) (t : String) :
    s.LeafAt i t ↔ t ∈ n.tenantLastAccessTime ∧ ¬ s.ChildHas n t := by
  rw [childHas_iff h hi, ← hasTenant_iff hi]
  unfold LeafAt
  constructor
  · rintro ⟨ht, hno⟩
    exact ⟨ht, fun ⟨j, hj, hjt⟩ => hno j hj hjt⟩
  · rintro ⟨ht, hno⟩
    exact ⟨ht, fun j hj hjt => hno ⟨j, hj, hjt⟩⟩

theorem exists_leafAt (h : s.Shape word) {i : Nat} (hi : s.HasTenant i tenant) :
    ∃ j, s.LeafAt j tenant := by
  let bound := (Finset.range s.counter).sup fun j => (word j).length
  have hbound : ∀ {j}, s.HasTenant j tenant → (word j).length ≤ bound := by
    intro j hj
    obtain ⟨n, hn⟩ := hj.node
    exact Finset.le_sup (f := fun j => (word j).length) (Finset.mem_range.mpr (h.fresh hn))
  induction hgap : bound - (word i).length using Nat.strong_induction_on generalizing i with
  | _ gap ih =>
    by_cases hleaf : ∀ j, s.ChildOf j i → ¬ s.HasTenant j tenant
    · exact ⟨i, hi, hleaf⟩
    · simp only [not_forall, not_not] at hleaf
      obtain ⟨j, ⟨n, hn, hp⟩, hj⟩ := hleaf
      have hlt := h.trie.word_length_lt (heap_at hn) hp
      have hle := hbound hj
      exact ih _ (by omega) hj rfl

/-! ## Section 2: A tenant leaves a node -/

def without (n : Node) (tenant : String) : Node :=
  { n with tenantLastAccessTime := n.tenantLastAccessTime.erase tenant }

theorem mem_without {n : Node} {t : String} :
    t ∈ (without n tenant).tenantLastAccessTime ↔ t ≠ tenant ∧ t ∈ n.tenantLastAccessTime :=
  Finmap.mem_erase

theorem dropTenant_eq (i : Nat) (n : Node) : s.dropTenant i n tenant =
    if n.children = ∅ ∧ (without n tenant).tenantLastAccessTime = ∅ then
      match n.parent, n.text.firstChar with
      | some p, some fc =>
        match (s.setNode i (without n tenant)).nodes p with
        | none => s.setNode i (without n tenant)
        | some pn =>
          { s with
            nodes := update (update (s.setNode i (without n tenant)).nodes p
              (some { pn with children := pn.children.erase fc })) i none }
      | _, _ => s.setNode i (without n tenant)
    else s.setNode i (without n tenant) := rfl

variable (tenant) in
/-- Either the node stays in the tree, or it was a leaf of the tree. -/
theorem dropTenant_cases (h : s.Shape word) {i : Nat} {n : Node} (hi : s.nodes i = some n) :
    (s.dropTenant i n tenant = s.setNode i (without n tenant) ∧
      (n.children = ∅ ∧ (without n tenant).tenantLastAccessTime = ∅ → i = root)) ∨
    (n.children = ∅ ∧ (without n tenant).tenantLastAccessTime = ∅ ∧
      ∃ p pn c, n.parent = some p ∧ s.nodes p = some pn ∧ p ≠ i ∧ n.text.text.head? = some c ∧
        s.dropTenant i n tenant = { s with
          nodes := update (update s.nodes p
            (some { pn with children := pn.children.erase c })) i none }) := by
  rw [dropTenant_eq]
  by_cases hempty : n.children = ∅ ∧ (without n tenant).tenantLastAccessTime = ∅
  · rw [if_pos hempty]
    by_cases hroot : i = root
    · left
      obtain ⟨r, hr, hpar, _⟩ := h.root
      rw [← hroot, hi] at hr
      cases hr
      refine ⟨?_, fun _ => hroot⟩
      simp only [hpar]
    · right
      obtain ⟨p, pn, hp, hpn, hfile⟩ := h.parent hi hroot
      obtain ⟨n', hn', _, hhead⟩ := h.child hpn hfile
      rw [hi] at hn'
      cases hn'
      have hne : p ≠ i := h.trie.parent_ne_self (heap_at hi) hp
      refine ⟨hempty.1, hempty.2, p, pn, _, hp, hpn, hne, hhead, ?_⟩
      have hset : (s.setNode i (without n tenant)).nodes p = some pn := by
        simp [setNode, hne, hpn]
      simp only [hp, NodeText.firstChar, hhead, hset]
      congr 1
      simp only [setNode]
      rw [update_comm hne, update_idem, update_comm hne.symm]
  · left
    rw [if_neg hempty]
    exact ⟨rfl, fun hno => absurd hno hempty⟩

variable (tenant) in
theorem heap_dropTenant (h : s.Shape word) {i : Nat} {n : Node} (hi : s.nodes i = some n) :
    (s.dropTenant i n tenant).heap = s.heap ∨
    (without n tenant).tenantLastAccessTime = ∅ ∧ (∀ c, n.cell.child c = none) ∧
      ∃ p pn, n.parent = some p ∧ s.nodes p = some pn ∧
        (s.dropTenant i n tenant).heap =
          PageTrie.removeLeaf firstOf 1 s.heap p pn.cell i n.cell.label := by
  rcases dropTenant_cases tenant h hi with ⟨heq, _⟩ |
    ⟨hleaf, hnone, p, pn, c, hp, hpn, hne, hhead, heq⟩
  · left
    rw [heq]
    exact heap_setNode hi rfl
  · right
    refine ⟨hnone, fun c => by simp [Node.cell, hleaf], p, pn, hp, hpn, ?_⟩
    rw [heq]
    funext j
    by_cases hji : j = i
    · subst hji
      rw [removeLeaf_gone]
      simp [heap]
    by_cases hjp : j = p
    · subst hjp
      rw [removeLeaf_parent hji]
      simp only [heap, update_of_ne hji, update_self, map_some, Node.cell,
        Cell.setChild]
      congr 2
      funext d
      have hfirst : firstOf (n.text.text.take 1) = c := by
        cases htext : n.text.text with
        | nil => simp [htext] at hhead
        | cons d l =>
          simp only [htext, List.head?_cons, Option.some.injEq] at hhead
          simp [firstOf, hhead]
      rw [hfirst]
      by_cases hd : d = c
      · subst hd
        simp
      · simp [hd, Finmap.lookup_erase_ne hd]
    · rw [removeLeaf_other hji hjp]
      simp [heap, hji, hjp]

variable (tenant) in
theorem nodeSum_dropTenant (h : s.Shape word) {i : Nat} {n : Node} (hi : s.nodes i = some n)
    (f : Option Node → Nat) (hnone : f none = 0)
    (hlinks : ∀ (m : Node) cs, f (some { m with children := cs }) = f (some m))
    (hempty : (without n tenant).tenantLastAccessTime = ∅ → f (some (without n tenant)) = 0) :
    nodeSum f (s.dropTenant i n tenant).nodes s.counter + f (some n) =
      nodeSum f s.nodes s.counter + f (some (without n tenant)) := by
  rcases dropTenant_cases tenant h hi with ⟨heq, _⟩ |
    ⟨_, hgone, p, pn, c, hp, hpn, hne, _, heq⟩
  · rw [heq]
    have hsum := nodeSum_update f s.nodes (h.fresh hi) (some (without n tenant))
    rw [hi] at hsum
    exact hsum
  · rw [heq, hempty hgone]
    have hparent := nodeSum_update f s.nodes (h.fresh hpn)
      (some { pn with children := pn.children.erase c })
    have hnode := nodeSum_update f (update s.nodes p
      (some { pn with children := pn.children.erase c })) (h.fresh hi) none
    rw [update_of_ne hne.symm, hi, hnone] at hnode
    rw [hpn, hlinks pn (pn.children.erase c)] at hparent
    exact hnode.trans (congrArg (· + 0) (Nat.add_right_cancel hparent))

theorem counter_dropTenant (i : Nat) (n : Node) :
    (s.dropTenant i n tenant).counter = s.counter := by
  rw [dropTenant_eq]
  repeat' split
  all_goals rfl

theorem counts_dropTenant (i : Nat) (n : Node) :
    (s.dropTenant i n tenant).tenantCharCount = s.tenantCharCount := by
  rw [dropTenant_eq]
  repeat' split
  all_goals rfl

variable (tenant) in
theorem hasTenant_dropTenant (h : s.Shape word) {i : Nat} {n : Node} (hi : s.nodes i = some n)
    (j : Nat) (t : String) : (s.dropTenant i n tenant).HasTenant j t ↔
      s.HasTenant j t ∧ ¬ (j = i ∧ t = tenant) := by
  rcases dropTenant_cases tenant h hi with ⟨heq, _⟩ |
    ⟨_, hgone, p, pn, c, hp, hpn, hne, _, heq⟩
  · rw [heq, hasTenant_setNode]
    by_cases hj : j = i
    · subst hj
      rw [if_pos rfl, mem_without, hasTenant_iff hi]
      tauto
    · rw [if_neg hj]
      tauto
  · rw [heq]
    by_cases hj : j = i
    · -- the node had no tenant but the one that left
      subst hj
      have hno : ¬ (t ∈ (without n tenant).tenantLastAccessTime) := by
        rw [hgone]
        exact Finmap.notMem_empty
      rw [mem_without, ← hasTenant_iff hi] at hno
      constructor
      · rintro ⟨m, hm, _⟩
        simp at hm
      · rintro ⟨hjt, hneq⟩
        exact absurd ⟨fun heq => hneq ⟨rfl, heq⟩, hjt⟩ hno
    · by_cases hjp : j = p
      · subst hjp
        simp [HasTenant, hpn, hj]
      · simp [HasTenant, hjp, hj]

theorem parent_dropTenant (h : s.Shape word) {i : Nat} {n : Node} (hi : s.nodes i = some n)
    {j : Nat} {c' : Cell Char Char} (hc' : (s.dropTenant i n tenant).heap j = some c') :
    ∃ c, s.heap j = some c ∧ c.parent = c'.parent := by
  rcases heap_dropTenant tenant h hi with heq | ⟨_, _, p, pn, _, hpn, heq⟩
  · exact ⟨c', heq ▸ hc', rfl⟩
  · obtain ⟨_, c, hc, hpar, _⟩ := removeLeaf_old (heap_at hpn) (heq ▸ hc')
    exact ⟨c, hc, hpar⟩

theorem shape_dropTenant (h : s.Shape word) {i : Nat} {n : Node} (hi : s.nodes i = some n) :
    (s.dropTenant i n tenant).Shape word := by
  constructor
  · rcases heap_dropTenant tenant h hi with heq | ⟨_, hchildless, p, pn, hp, hpn, heq⟩
    · rw [heq]
      exact h.trie
    · rw [heq]
      exact h.trie.removeLeaf (heap_at hpn) (heap_at hi) hp hchildless
  · intro j m hj
    obtain ⟨c, hc, _⟩ := parent_dropTenant h hi (heap_at hj)
    obtain ⟨m', hm', _⟩ := heap_some hc
    rw [counter_dropTenant]
    exact h.fresh hm'

/-- A tree after a tenant left one of its leaves. -/
structure Dropped (s s' : Tree) (i : Nat) (tenant : String) : Prop where
  tenants : ∀ j t, s'.HasTenant j t ↔ s.HasTenant j t ∧ ¬ (j = i ∧ t = tenant)
  links : ∀ {j p}, s'.ChildOf j p → s.ChildOf j p
  keeps : ∀ {j p t}, s'.HasTenant j t → s.ChildOf j p → s'.ChildOf j p

theorem dropTenant_spec (h : s.Shape word) (ht : s.Tenanted) {i : Nat} {n : Node}
    (hi : s.nodes i = some n) (hleaf : s.LeafAt i tenant) :
    let s' := s.dropTenant i n tenant
    s'.Shape word ∧ s'.Tenanted ∧ s.Dropped s' i tenant := by
  intro s'
  have htenants := hasTenant_dropTenant tenant h hi
  have hlinks : ∀ {j c'}, s'.heap j = some c' → ∃ c, s.heap j = some c ∧ c.parent = c'.parent :=
    parent_dropTenant h hi
  refine ⟨shape_dropTenant h hi, tenanted_of ?_ ?_, htenants, ?_, ?_⟩
  · -- the dropped node was the lowest with the tenant
    intro j p c t hj hp hjt
    obtain ⟨hold, _⟩ := (htenants j t).mp hjt
    obtain ⟨c', hc', hpar⟩ := hlinks hj
    have hpt := ht.below_cell hc' (hpar.trans hp) hold
    refine (htenants p t).mpr ⟨hpt, ?_⟩
    rintro ⟨rfl, rfl⟩
    exact hleaf.2 j (.of_cell hc' (hpar.trans hp)) hold
  · -- the node itself has a tenant left, or it is gone
    intro j c hj hroot
    by_cases hji : j = i
    · subst hji
      rcases dropTenant_cases tenant h hi with ⟨_, hstay⟩ |
        ⟨_, _, p, pn, c', _, _, _, _, heq⟩
      · by_cases hchildren : n.children = ∅
        · have hne : (without n tenant).tenantLastAccessTime ≠ ∅ :=
            fun hempty => hroot (hstay ⟨hchildren, hempty⟩)
          obtain ⟨t, htmem⟩ : ∃ t, t ∈ (without n tenant).tenantLastAccessTime := by
            by_contra hno
            push Not at hno
            apply hne
            apply Finmap.ext_lookup
            intro t
            rw [Finmap.lookup_eq_none.mpr (hno t), Finmap.lookup_empty]
          obtain ⟨hneq, hmem⟩ := mem_without.mp htmem
          exact ⟨t, (htenants j t).mpr ⟨⟨n, hi, hmem⟩, fun hno => hneq hno.2⟩⟩
        · -- a child has a tenant, and not the one that left
          obtain ⟨d, k, hk⟩ : ∃ d k, n.children.lookup d = some k := by
            by_contra hno
            push Not at hno
            apply hchildren
            apply Finmap.ext_lookup
            intro d
            rw [Finmap.lookup_empty]
            exact eq_none_iff_forall_ne_some.mpr (hno d)
          obtain ⟨m, hm, hpar, _⟩ := h.child hi hk
          obtain ⟨t, hmt⟩ := ht.held hm (h.ne_root hm hpar)
          refine ⟨t, (htenants j t).mpr ⟨ht.below hm hpar hmt, ?_⟩⟩
          rintro ⟨_, rfl⟩
          exact hleaf.2 k ⟨m, hm, hpar⟩ ⟨m, hm, hmt⟩
      · exfalso
        change (s.dropTenant j n tenant).heap j = some c at hj
        rw [heq] at hj
        simp [heap] at hj
    · obtain ⟨c', hc', _⟩ := hlinks hj
      obtain ⟨t, hjt⟩ := ht.held_cell hc' hroot
      exact ⟨t, (htenants j t).mpr ⟨hjt, fun hno => hji hno.1⟩⟩
  · intro j p hchild
    obtain ⟨c, hc, hp⟩ := hchild.cell
    obtain ⟨c', hc', hpar⟩ := hlinks hc
    exact .of_cell hc' (hpar.trans hp)
  · intro j p t hjt hchild
    obtain ⟨m, hm⟩ := hjt.node
    obtain ⟨c', hc', hpar⟩ := hlinks (heap_at hm)
    obtain ⟨c, hc, hp⟩ := hchild.cell
    rw [hc] at hc'
    cases hc'
    exact .of_cell (heap_at hm) (hpar.symm.trans hp)

/-! ## Section 3: Leaves afterwards -/

/-- The other leaves stay, and only the parent of the node may become one. -/
theorem leafAt_drop {s' : Tree} {i : Nat} (hleaf : s.LeafAt i tenant)
    (hdrop : s.Dropped s' i tenant) (j : Nat) (t : String) : s'.LeafAt j t ↔
      s.LeafAt j t ∧ ¬ (j = i ∧ t = tenant) ∨
        t = tenant ∧ s.ChildOf i j ∧ s'.LeafAt j t := by
  constructor
  · rintro ⟨hjt', hno⟩
    obtain ⟨hjt, hne⟩ := (hdrop.tenants j t).mp hjt'
    by_cases hparent : t = tenant ∧ s.ChildOf i j
    · exact .inr ⟨hparent.1, hparent.2, hjt', hno⟩
    · refine .inl ⟨⟨hjt, fun k hk hkt => ?_⟩, hne⟩
      have hkt' : s'.HasTenant k t := by
        refine (hdrop.tenants k t).mpr ⟨hkt, ?_⟩
        rintro ⟨rfl, rfl⟩
        exact hparent ⟨rfl, hk⟩
      exact hno k (hdrop.keeps hkt' hk) hkt'
  · rintro (⟨⟨hjt, hno⟩, hne⟩ | ⟨_, _, hleaf'⟩)
    · refine ⟨(hdrop.tenants j t).mpr ⟨hjt, hne⟩, fun k hk hkt => ?_⟩
      exact hno k (hdrop.links hk) ((hdrop.tenants k t).mp hkt).1
    · exact hleaf'

variable (tenant) in
theorem newLeaf_spec {s' : Tree} (h : s'.Shape word) (parent : Option Nat) :
    (∀ p, parent = some p → s'.LeafAt p tenant → ∃ timestamp,
      s'.newLeaf parent tenant = some (p, timestamp)) ∧
    ∀ p timestamp, s'.newLeaf parent tenant = some (p, timestamp) →
      parent = some p ∧ s'.LeafAt p tenant := by
  constructor
  · rintro p rfl hleaf
    obtain ⟨pn, hpn⟩ := hleaf.1.node
    obtain ⟨hmem, hno⟩ := (leafAt_iff h hpn tenant).mp hleaf
    obtain ⟨timestamp, htime⟩ := Finmap.mem_iff.mp hmem
    exact ⟨timestamp, by simp [newLeaf, hpn, htime, hno]⟩
  · intro p timestamp heq
    cases parent with
    | none => simp [newLeaf] at heq
    | some q =>
      cases hpn : s'.nodes q with
      | none => simp [newLeaf, hpn] at heq
      | some pn =>
        cases htime : pn.tenantLastAccessTime.lookup tenant with
        | none => simp [newLeaf, hpn, htime] at heq
        | some time =>
          by_cases hno : s'.ChildHas pn tenant
          · simp [newLeaf, hpn, htime, hno] at heq
          · simp only [newLeaf, hpn, htime, hno, bind_eq_bind, bind_some, if_false,
              Option.some.injEq, Prod.mk.injEq] at heq
            obtain ⟨rfl, _⟩ := heq
            exact ⟨rfl, (leafAt_iff h hpn tenant).mpr ⟨Finmap.mem_iff.mpr ⟨time, htime⟩, hno⟩⟩

end Tree

end Sglang.Gateway
