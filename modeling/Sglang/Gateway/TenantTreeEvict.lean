import Sglang.Gateway.TenantTreeDrop

/-!
# Eviction and Removal in the Routing Tree

Both walk from the leaves of a tenant upwards. An entry of the heap may be stale, so eviction tests
it again; what it needs is that no leaf of a tenant above the limit is missing from the heap.

- `Covers`: every such leaf has an entry,
- `evictTenantBySize_spec`: eviction returns, and no tenant is above the limit,
- `removeTenant_spec`: removal returns, and takes the tenant from every node.
-/

namespace Sglang.Gateway

open List Option
open Lib
open Lib.PageTrie

namespace Tree

variable {s : Tree} {word : Nat → List Char} {tenant : String}

/-! ## Section 1: One eviction -/

theorem used_of_leafAt_root (h : s.Shape word) (ht : s.Tenanted) (hleaf : s.LeafAt root tenant) :
    s.used tenant = 0 := by
  obtain ⟨r, hr, _, hrtext⟩ := h.root
  unfold used nodeSum
  apply Finset.sum_eq_zero
  intro i _
  by_cases hroot : i = root
  · rw [hroot, hr]
    simp [charsFor, r.text.count_eq, hrtext]
  · apply charsFor_eq_zero
    intro hi
    -- the node below the root on the way to `i` would have the tenant
    obtain ⟨n, hn⟩ := hi.node
    have hpre : word root <+: word i := by
      rw [h.word_root]
      exact nil_prefix
    obtain ⟨k, ck, hck, hkpar, hki⟩ := h.trie.child_on_path (heap_at hr) (heap_at hn) hpre
      (Ne.symm hroot)
    obtain ⟨m, hm, rfl⟩ := heap_some hck
    exact hleaf.2 k ⟨m, hm, hkpar⟩ (ht.above h hm hi hki)

variable {n : Node} {pq : List EvictionEntry} {e : EvictionEntry} {maxSize : Nat}

variable (tenant) in
theorem used_dropTenant (h : s.Shape word) {i : Nat} (hi : s.nodes i = some n)
    (hmem : tenant ∈ n.tenantLastAccessTime) (t : String) :
    (s.dropTenant i n tenant).used t + (if t = tenant then n.text.charCount else 0) =
      s.used t := by
  have hsum := nodeSum_dropTenant tenant h hi (charsFor t) rfl (fun _ _ => rfl) (by
    intro hempty
    have hno : t ∉ (without n tenant).tenantLastAccessTime := by
      rw [hempty]
      exact Finmap.notMem_empty
    simp [charsFor, hno])
  unfold used
  rw [counter_dropTenant]
  by_cases heq : t = tenant
  · subst heq
    have hgone : charsFor t (some (without n t)) = 0 := by simp [charsFor, mem_without]
    have hwas : charsFor t (some n) = n.text.charCount := by simp [charsFor, hmem]
    rw [hgone, hwas] at hsum
    rw [if_pos rfl]
    exact hsum
  · have hsame : charsFor t (some (without n tenant)) = charsFor t (some n) := by
      simp [charsFor, heq, without]
    rw [hsame] at hsum
    rw [if_neg heq]
    exact Nat.add_right_cancel hsum

theorem holdings_eq : s.holdings = nodeSum
    (fun o : Option Node => (o.map fun n => n.tenantLastAccessTime.keys.card).getD 0) s.nodes
      s.counter := by
  unfold holdings nodeSum
  rw [← sum_toFinset _ nodup_range, toFinset_range]

variable (tenant) in
theorem holdings_dropTenant (h : s.Shape word) {i : Nat} (hi : s.nodes i = some n)
    (hmem : tenant ∈ n.tenantLastAccessTime) :
    (s.dropTenant i n tenant).holdings + 1 = s.holdings := by
  have hsum := nodeSum_dropTenant tenant h hi
    (fun o : Option Node => (o.map fun n => n.tenantLastAccessTime.keys.card).getD 0) rfl
    (fun _ _ => rfl) (by
      intro hempty
      simp [hempty])
  rw [holdings_eq, holdings_eq, counter_dropTenant]
  have hkeys : (without n tenant).tenantLastAccessTime.keys.card + 1 =
      n.tenantLastAccessTime.keys.card := by
    have herase : (without n tenant).tenantLastAccessTime.keys =
        n.tenantLastAccessTime.keys.erase tenant := Finmap.keys_erase _ _
    rw [herase]
    exact Finset.card_erase_add_one (Finmap.mem_keys.mpr hmem)
  simp only [map_some, getD_some] at hsum
  omega

theorem evict_one (h : s.Inv word) {i maxSize : Nat} (hi : s.nodes i = some n)
    (hleaf : s.LeafAt i tenant) (hbig : ¬ s.Fits maxSize tenant) :
    let s' := (s.subChars tenant n.text.charCount).dropTenant i n tenant
    s'.Inv word ∧ s.Dropped s' i tenant ∧ s'.holdings + 1 = s.holdings ∧
      ∀ t, t ≠ tenant → s'.tenantCharCount.lookup t = s.tenantCharCount.lookup t := by
  intro s'
  have hmem := (hasTenant_iff hi tenant).mp hleaf.1
  have hroot := h.tenanted.root_has h.shape hleaf.1
  have hcount := (h.counts tenant).present hroot
  have hne : i ≠ root := by
    rintro rfl
    refine hbig ⟨_, hcount, ?_⟩
    rw [used_of_leafAt_root h.shape h.tenanted hleaf]
    exact Nat.zero_le _
  -- the accounts play no part in the rest of the step
  have hsub : s' = { s.dropTenant i n tenant with
      tenantCharCount := s.tenantCharCount.insert tenant (s.used tenant - n.text.charCount) } := by
    have hstep : s.subChars tenant n.text.charCount = { s with
        tenantCharCount := s.tenantCharCount.insert tenant
          (s.used tenant - n.text.charCount) } := by
      simp [subChars, hcount]
    change (s.subChars tenant n.text.charCount).dropTenant i n tenant = _
    rw [hstep, dropTenant_eq, dropTenant_eq]
    simp only [setNode]
    split
    · split
      · split
        · rfl
        · rfl
      · rfl
    · rfl
  obtain ⟨hshape, htenanted, hdrop⟩ := dropTenant_spec h.shape h.tenanted hi hleaf
  have hused := used_dropTenant tenant h.shape hi hmem
  have hother : ∀ t, t ≠ tenant →
      s'.tenantCharCount.lookup t = s.tenantCharCount.lookup t := by
    intro t ht
    rw [hsub]
    exact Finmap.lookup_insert_of_ne _ ht
  have hrootkeep : ∀ t, s'.HasTenant root t ↔ s.HasTenant root t := by
    intro t
    rw [hsub]
    refine (hdrop.tenants root t).trans ⟨And.left, fun ht => ⟨ht, fun hno => hne hno.1.symm⟩⟩
  have hsused : ∀ t, s'.used t = (s.dropTenant i n tenant).used t := by
    intro t
    rw [hsub]
    rfl
  refine ⟨⟨?_, ?_, ?_⟩, ?_, ?_, hother⟩
  · rw [hsub]
    exact ⟨hshape.trie, hshape.fresh⟩
  · rw [hsub]
    exact ⟨htenanted.below, htenanted.held⟩
  · intro t
    by_cases heq : t = tenant
    · subst heq
      refine ⟨fun _ => ?_, fun hno => absurd ((hrootkeep t).mpr hroot) hno⟩
      have hlook : s'.tenantCharCount.lookup t = some (s.used t - n.text.charCount) := by
        rw [hsub]
        exact Finmap.lookup_insert _
      have hsum := hused t
      rw [if_pos rfl] at hsum
      rw [hlook, hsused]
      congr 1
      omega
    · have hsum := hused t
      rw [if_neg heq, Nat.add_zero] at hsum
      refine ⟨fun hyes => ?_, fun hno => ?_⟩
      · rw [hother t heq, hsused, hsum]
        exact (h.counts t).present ((hrootkeep t).mp hyes)
      · rw [hother t heq]
        exact (h.counts t).absent fun hyes => hno ((hrootkeep t).mpr hyes)
  · rw [hsub]
    exact ⟨hdrop.tenants, hdrop.links, hdrop.keeps⟩
  · have hhold := holdings_dropTenant tenant h.shape hi hmem
    rw [hsub]
    exact hhold

/-! ## Section 2: The heap -/

theorem popMin_none {tie : List EvictionEntry → Nat} :
    popMin tie pq = none ↔ pq = [] := by
  cases pq with
  | nil => simp [popMin]
  | cons e es => simp [popMin]

theorem popMin_some {tie : List EvictionEntry → Nat} {pq rest : List EvictionEntry}
    (h : popMin tie pq = some (e, rest)) : e ∈ pq ∧ rest = pq.erase e := by
  cases pq with
  | nil => simp [popMin] at h
  | cons x es =>
    simp only [popMin, Option.some.injEq, Prod.mk.injEq] at h
    obtain ⟨rfl, rfl⟩ := h
    refine ⟨?_, rfl⟩
    set candidates := (x :: es).filter fun y =>
      decide (y.timestamp = es.foldl (fun m z => min m z.timestamp) x.timestamp) with hcandidates
    cases hpick : candidates[tie candidates % candidates.length]? with
    | none => exact mem_cons_self ..
    | some y =>
      have hy : y ∈ candidates := mem_of_getElem? hpick
      rw [hcandidates] at hy
      exact (mem_filter.mp hy).1

/-- Every leaf of a tenant above the limit has an entry. -/
def Covers (s : Tree) (maxSize : Nat) (pq : List EvictionEntry) : Prop :=
  ∀ i t, s.LeafAt i t → ¬ s.Fits maxSize t → ∃ e ∈ pq, e.node = i ∧ e.tenant = t

theorem Covers.erase
    (h : s.Covers maxSize pq) (hstale : s.LeafAt e.node e.tenant → s.Fits maxSize e.tenant) :
    s.Covers maxSize (pq.erase e) := by
  intro i t hleaf hbig
  obtain ⟨x, hx, rfl, rfl⟩ := h i t hleaf hbig
  have hne : x ≠ e := by
    rintro rfl
    exact hbig (hstale hleaf)
  exact ⟨x, (mem_erase_of_ne hne).mpr hx, rfl, rfl⟩

theorem Covers.fits (h : s.Inv word) (hcover : s.Covers maxSize []) {t : String}
    {used : Nat} (hused : s.tenantCharCount.lookup t = some used) : used ≤ maxSize := by
  by_contra hbig
  have hroot : s.HasTenant root t := by
    by_contra hno
    rw [(h.counts t).absent hno] at hused
    cases hused
  obtain ⟨i, hleaf⟩ := exists_leafAt h.shape hroot
  obtain ⟨e, he, _⟩ := hcover i t hleaf (by
    rintro ⟨used', hused', hle⟩
    rw [mem_def, hused] at hused'
    cases hused'
    exact hbig hle)
  exact absurd he not_mem_nil

theorem Covers.evict {s' : Tree} (h : s.Covers maxSize pq) (hn : s.nodes e.node = some n)
    (hleaf : s.LeafAt e.node e.tenant) (hbig : ¬ s.Fits maxSize e.tenant)
    (hdrop : s.Dropped s' e.node e.tenant)
    (hother : ∀ t, t ≠ e.tenant →
      s'.tenantCharCount.lookup t = s.tenantCharCount.lookup t) {new : List EvictionEntry}
    (hnew : ∀ p, n.parent = some p → s'.LeafAt p e.tenant →
      ∃ x ∈ new, x.node = p ∧ x.tenant = e.tenant) :
    s'.Covers maxSize (new ++ pq.erase e) := by
  intro i t hi hnofit
  rcases (leafAt_drop hleaf hdrop i t).mp hi with ⟨hold, hne⟩ | ⟨rfl, ⟨m, hm, hp⟩, hi⟩
  · have hnofit' : ¬ s.Fits maxSize t := by
      by_cases ht : t = e.tenant
      · exact ht ▸ hbig
      · rintro ⟨used, hused, hle⟩
        exact hnofit ⟨used, by rw [hother t ht]; exact hused, hle⟩
    obtain ⟨x, hx, rfl, rfl⟩ := h i t hold hnofit'
    have hxe : x ≠ e := by
      rintro rfl
      exact hne ⟨rfl, rfl⟩
    exact ⟨x, mem_append_right _ ((mem_erase_of_ne hxe).mpr hx), rfl, rfl⟩
  · rw [hn] at hm
    cases hm
    obtain ⟨x, hx, hxi, hxt⟩ := hnew i hp hi
    exact ⟨x, mem_append_left _ hx, hxi, hxt⟩

/-! ## Section 3: The loop of the eviction -/

/-- A tree with fewer tenants at its nodes. -/
def Shrinks (s s' : Tree) : Prop := ∀ j t, s'.HasTenant j t → s.HasTenant j t

theorem evictLoop_spec (tie : List EvictionEntry → Nat) (maxSize : Nat) : ∀ (fuel : Nat) {s : Tree}
    {pq : List EvictionEntry}, s.Inv word → s.Covers maxSize pq →
    pq.length + s.holdings < fuel →
    ∃ s', evictLoop tie maxSize fuel s pq = some s' ∧ s'.Inv word ∧ s.Shrinks s' ∧
      s'.Covers maxSize [] := by
  intro fuel
  induction fuel with
  | zero => exact fun _ _ hfuel => absurd hfuel (Nat.not_lt_zero _)
  | succ fuel ih =>
    intro s pq h hcover hfuel
    cases hpop : popMin tie pq with
    | none =>
      rw [popMin_none.mp hpop] at hcover
      exact ⟨s, by simp [evictLoop, hpop], h, fun _ _ ht => ht, hcover⟩
    | some popped =>
      obtain ⟨e, rest⟩ := popped
      obtain ⟨hmem, rfl⟩ := popMin_some hpop
      have hlen : (pq.erase e).length + 1 = pq.length := by
        rw [length_erase_of_mem hmem]
        have := length_pos_of_mem hmem
        omega
      -- a stale entry, or one of a tenant that fits, is skipped
      have hskip : (s.LeafAt e.node e.tenant → s.Fits maxSize e.tenant) →
          ∃ s', evictLoop tie maxSize fuel s (pq.erase e) = some s' ∧ s'.Inv word ∧
            s.Shrinks s' ∧ s'.Covers maxSize [] :=
        fun hstale => ih h (hcover.erase hstale) (by omega)
      by_cases hfits : s.Fits maxSize e.tenant
      · simp only [evictLoop, hpop, if_pos hfits]
        exact hskip fun _ => hfits
      · cases hn : s.nodes e.node with
        | none =>
          simp only [evictLoop, hpop, if_neg hfits, hn]
          refine hskip fun hleaf => ?_
          obtain ⟨m, hm⟩ := hleaf.1.node
          rw [hn] at hm
          cases hm
        | some n =>
          by_cases htest : e.tenant ∈ n.tenantLastAccessTime ∧ ¬ s.ChildHas n e.tenant
          · have hleaf := (leafAt_iff h.shape hn e.tenant).mpr htest
            obtain ⟨hinv, hdrop, hhold, hother⟩ := evict_one h hn hleaf hfits
            set s₁ := (s.subChars e.tenant n.text.charCount).dropTenant e.node n e.tenant with hs₁
            obtain ⟨hqueued, _⟩ := newLeaf_spec e.tenant hinv.shape n.parent
            have hcover₁ : ∀ new : List EvictionEntry, (∀ p, n.parent = some p →
                s₁.LeafAt p e.tenant → ∃ x ∈ new, x.node = p ∧ x.tenant = e.tenant) →
                  s₁.Covers maxSize (new ++ pq.erase e) :=
              fun new => hcover.evict hn hleaf hfits hdrop hother
            cases hnew : s₁.newLeaf n.parent e.tenant with
            | none =>
              obtain ⟨s₂, heq, hinv₂, hshrink, hcover₂⟩ := ih hinv
                (hcover₁ [] fun p hp hpleaf => by
                  obtain ⟨timestamp, htime⟩ := hqueued p hp hpleaf
                  rw [hnew] at htime
                  cases htime)
                (by simp only [nil_append]; omega)
              refine ⟨s₂, ?_, hinv₂, ?_, hcover₂⟩
              · simp only [evictLoop, hpop, if_neg hfits, hn, if_pos htest, ← hs₁, hnew]
                exact heq
              · exact fun j t ht => ((hdrop.tenants j t).mp (hshrink j t ht)).1
            | some entry =>
              obtain ⟨p, timestamp⟩ := entry
              obtain ⟨s₂, heq, hinv₂, hshrink, hcover₂⟩ := ih hinv
                (hcover₁ [⟨timestamp, e.tenant, p⟩] fun q hq hqleaf => by
                  obtain ⟨time, htime⟩ := hqueued q hq hqleaf
                  rw [hnew] at htime
                  cases htime
                  exact ⟨_, mem_singleton_self _, rfl, rfl⟩)
                (by simp only [singleton_append, length_cons]; omega)
              refine ⟨s₂, ?_, hinv₂, ?_, hcover₂⟩
              · simp only [evictLoop, hpop, if_neg hfits, hn, if_pos htest, ← hs₁, hnew]
                exact heq
              · exact fun j t ht => ((hdrop.tenants j t).mp (hshrink j t ht)).1
          · simp only [evictLoop, hpop, if_neg hfits, hn, if_neg htest]
            exact hskip fun hleaf => absurd ((leafAt_iff h.shape hn e.tenant).mp hleaf) htest

theorem covers_leafEntries (h : s.Shape word) (order : DashOrder) (maxSize : Nat) :
    s.Covers maxSize (s.leafEntries order) := by
  intro i t hleaf _
  obtain ⟨n, hn⟩ := hleaf.1.node
  obtain ⟨hmem, hno⟩ := (leafAt_iff h hn t).mp hleaf
  obtain ⟨timestamp, htime⟩ := Finmap.mem_iff.mp hmem
  refine ⟨⟨timestamp, t, i⟩, ?_, rfl, rfl⟩
  unfold leafEntries
  refine mem_flatMap.mpr ⟨i, ((visited_spec _ h).2 i).mpr ⟨n, hn⟩, ?_⟩
  simp only [hn]
  refine mem_filterMap.mpr ⟨t, ?_, by rw [htime]; rfl⟩
  rw [leafOf, order.tenants.mem, Finset.mem_filter]
  exact ⟨Finmap.mem_keys.mpr hmem, hno⟩

/-- Eviction returns, takes tenants from nodes only, and leaves no tenant above the limit. -/
theorem evictTenantBySize_spec (h : s.Inv word) (order : DashOrder)
    (tie : List EvictionEntry → Nat) (maxSize : Nat) :
    ∃ s', s.evictTenantBySize order tie maxSize = some s' ∧ s'.Inv word ∧ s.Shrinks s' ∧
      ∀ t used, s'.tenantCharCount.lookup t = some used → used ≤ maxSize := by
  obtain ⟨s', heq, hinv, hshrink, hcover⟩ := evictLoop_spec tie maxSize
    ((s.leafEntries order).length + s.holdings + 1) h (covers_leafEntries h.shape order maxSize)
    (Nat.lt_succ_self _)
  exact ⟨s', heq, hinv, hshrink, fun _ _ hused => hcover.fits hinv hused⟩

/-! ## Section 4: Removal -/

def nodesOf (s : Tree) (tenant : String) : Nat :=
  nodeSum (fun o : Option Node => if o.any (fun n => tenant ∈ n.tenantLastAccessTime) then 1 else 0)
    s.nodes s.counter

variable (tenant) in
theorem nodesOf_dropTenant (h : s.Shape word) {i : Nat} (hi : s.nodes i = some n)
    (hmem : tenant ∈ n.tenantLastAccessTime) :
    (s.dropTenant i n tenant).nodesOf tenant + 1 = s.nodesOf tenant := by
  have hsum := nodeSum_dropTenant tenant h hi
    (fun o : Option Node => if o.any (fun n => tenant ∈ n.tenantLastAccessTime) then 1 else 0) rfl
    (fun _ _ => rfl) (by simp [mem_without])
  simp only [any_some, hmem, decide_true, if_true, mem_without, ne_eq, not_true_eq_false,
    false_and, decide_false, Bool.false_eq_true, if_false, Nat.add_zero] at hsum
  unfold nodesOf
  rw [counter_dropTenant]
  exact hsum

theorem nodesOf_le : s.nodesOf tenant ≤ s.counter := by
  unfold nodesOf nodeSum
  calc _ ≤ ∑ _i ∈ Finset.range s.counter, 1 := by
        apply Finset.sum_le_sum
        intro i _
        dsimp only
        split
        · exact le_rfl
        · exact Nat.zero_le _
    _ = s.counter := by simp

/-- What the loop of the removal keeps. The account of the tenant itself is off until the end. -/
structure RemoveInv (s : Tree) (word : Nat → List Char) (tenant : String) (queue : List Nat) :
    Prop where
  shape : s.Shape word
  tenanted : s.Tenanted
  counts : ∀ t, t ≠ tenant → s.CountOk t
  leaves : ∀ i, i ∈ queue ↔ s.LeafAt i tenant
  nodup : queue.Nodup

theorem RemoveInv.drop {curr : Nat} {queue : List Nat}
    (h : s.RemoveInv word tenant (curr :: queue)) (hn : s.nodes curr = some n)
    {new : List Nat} (hnodup : new.Nodup)
    (hnew : ∀ p, p ∈ new ↔ n.parent = some p ∧ (s.dropTenant curr n tenant).LeafAt p tenant) :
    (s.dropTenant curr n tenant).RemoveInv word tenant (queue ++ new) := by
  have hleaf : s.LeafAt curr tenant := (h.leaves curr).mp (mem_cons_self ..)
  have hmem := (hasTenant_iff hn tenant).mp hleaf.1
  obtain ⟨hshape, htenanted, hdrop⟩ := dropTenant_spec h.shape h.tenanted hn hleaf
  obtain ⟨hfresh, hqueue⟩ := nodup_cons.mp h.nodup
  refine ⟨hshape, htenanted, ?_, ?_, ?_⟩
  · intro t ht
    have hroot : (s.dropTenant curr n tenant).HasTenant root t ↔ s.HasTenant root t :=
      (hdrop.tenants root t).trans ⟨And.left, fun hroot => ⟨hroot, fun hno => ht hno.2⟩⟩
    have hused := used_dropTenant tenant h.shape hn hmem t
    rw [if_neg ht, Nat.add_zero] at hused
    refine ⟨fun hyes => ?_, fun hno => ?_⟩
    · rw [counts_dropTenant, hused]
      exact (h.counts t ht).present (hroot.mp hyes)
    · rw [counts_dropTenant]
      exact (h.counts t ht).absent fun hyes => hno (hroot.mpr hyes)
  · intro i
    rw [leafAt_drop hleaf hdrop, mem_append, hnew, ← h.leaves]
    have hparent : s.ChildOf curr i ↔ n.parent = some i := by
      constructor
      · rintro ⟨m, hm, hp⟩
        rw [hn] at hm
        cases hm
        exact hp
      · exact fun hp => ⟨n, hn, hp⟩
    rw [hparent, mem_cons]
    constructor
    · rintro (hi | hi)
      · exact .inl ⟨.inr hi, fun hno => hfresh (hno.1 ▸ hi)⟩
      · exact .inr ⟨rfl, hi⟩
    · rintro (⟨hi | hi, hno⟩ | ⟨_, hi⟩)
      · exact absurd ⟨hi, rfl⟩ hno
      · exact .inl hi
      · exact .inr hi
  · rw [nodup_append]
    refine ⟨hqueue, hnodup, ?_⟩
    rintro p hp q hq rfl
    -- the parent of a node of the tenant was no leaf
    have hpleaf := (h.leaves p).mp (mem_cons_of_mem _ hp)
    exact hpleaf.2 curr ⟨n, hn, ((hnew p).mp hq).1⟩ hleaf.1

theorem removeLoop_spec : ∀ (fuel : Nat) {s : Tree} {queue : List Nat},
    s.RemoveInv word tenant queue → s.nodesOf tenant < fuel →
    ∃ s', removeLoop tenant fuel s queue = some s' ∧ s'.RemoveInv word tenant [] ∧
      ∀ j t, t ≠ tenant → (s'.HasTenant j t ↔ s.HasTenant j t) := by
  intro fuel
  induction fuel with
  | zero => exact fun _ hfuel => absurd hfuel (Nat.not_lt_zero _)
  | succ fuel ih =>
    intro s queue h hfuel
    cases queue with
    | nil => exact ⟨s, rfl, h, fun _ _ _ => Iff.rfl⟩
    | cons curr queue =>
      have hleaf : s.LeafAt curr tenant := (h.leaves curr).mp (mem_cons_self ..)
      obtain ⟨n, hn⟩ := hleaf.1.node
      have hmem := (hasTenant_iff hn tenant).mp hleaf.1
      obtain ⟨hshape, _, hdrop⟩ := dropTenant_spec h.shape h.tenanted hn hleaf
      have hless := nodesOf_dropTenant tenant h.shape hn hmem
      obtain ⟨hqueued, hqueued'⟩ := newLeaf_spec tenant hshape n.parent
      have hkeep : ∀ {s' : Tree}, (∀ j t, t ≠ tenant →
          (s'.HasTenant j t ↔ (s.dropTenant curr n tenant).HasTenant j t)) →
          ∀ j t, t ≠ tenant → (s'.HasTenant j t ↔ s.HasTenant j t) := by
        intro s' hrest j t ht
        rw [hrest j t ht, hdrop.tenants]
        exact ⟨And.left, fun hj => ⟨hj, fun hno => ht hno.2⟩⟩
      cases hnew : (s.dropTenant curr n tenant).newLeaf n.parent tenant with
      | none =>
        have hinv := h.drop hn nodup_nil (by
          intro p
          refine ⟨fun hp => absurd hp not_mem_nil, fun ⟨hp, hpleaf⟩ => ?_⟩
          obtain ⟨timestamp, htime⟩ := hqueued p hp hpleaf
          rw [hnew] at htime
          cases htime)
        rw [append_nil] at hinv
        obtain ⟨s', heq, hinv', hrest⟩ := ih hinv (by omega)
        exact ⟨s', by simp [removeLoop, hn, hnew, heq], hinv', hkeep hrest⟩
      | some entry =>
        obtain ⟨p, timestamp⟩ := entry
        have hinv := h.drop hn (nodup_singleton p) (by
          intro q
          rw [mem_singleton]
          constructor
          · rintro rfl
            exact hqueued' q timestamp hnew
          · rintro ⟨hq, hqleaf⟩
            obtain ⟨time, htime⟩ := hqueued q hq hqleaf
            rw [hnew] at htime
            cases htime
            rfl)
        obtain ⟨s', heq, hinv', hrest⟩ := ih hinv (by omega)
        exact ⟨s', by simp [removeLoop, hn, hnew, heq], hinv', hkeep hrest⟩

theorem removeTenant_spec (h : s.Inv word) (order : DashOrder) (tenant : String) :
    ∃ s', s.removeTenant order tenant = some s' ∧ s'.Inv word ∧
      ∀ j t, s'.HasTenant j t ↔ s.HasTenant j t ∧ t ≠ tenant := by
  have hqueue : ∀ i, i ∈ s.tenantLeaves order tenant ↔ s.LeafAt i tenant := by
    intro i
    unfold tenantLeaves
    rw [mem_filter, (visited_spec _ h.shape).2]
    constructor
    · rintro ⟨⟨n, hn⟩, htest⟩
      simp only [hn, decide_eq_true_eq] at htest
      exact (leafAt_iff h.shape hn tenant).mpr htest
    · intro hleaf
      obtain ⟨n, hn⟩ := hleaf.1.node
      refine ⟨⟨n, hn⟩, ?_⟩
      simp only [hn, decide_eq_true_eq]
      exact (leafAt_iff h.shape hn tenant).mp hleaf
  have hstart : s.RemoveInv word tenant (s.tenantLeaves order tenant) :=
    ⟨h.shape, h.tenanted, fun t _ => h.counts t, hqueue, (visited_spec _ h.shape).1.filter _⟩
  obtain ⟨s', heq, hinv, hkeep⟩ :=
    removeLoop_spec (s.counter + 1) hstart (Nat.lt_succ_of_le nodesOf_le)
  -- without a leaf the tenant has no node
  have hgone : ∀ j, ¬ s'.HasTenant j tenant := by
    intro j hj
    obtain ⟨i, hleaf⟩ := exists_leafAt hinv.shape hj
    exact absurd ((hinv.leaves i).mpr hleaf) not_mem_nil
  refine ⟨{ s' with tenantCharCount := s'.tenantCharCount.erase tenant },
    by simp [removeTenant, heq], ⟨⟨hinv.shape.trie, hinv.shape.fresh⟩,
    ⟨hinv.tenanted.below, hinv.tenanted.held⟩, ?_⟩, ?_⟩
  · intro t
    by_cases ht : t = tenant
    · subst ht
      exact ⟨fun hroot => absurd hroot (hgone root), fun _ => Finmap.lookup_erase _ _⟩
    · refine ⟨fun hroot => ?_, fun hno => ?_⟩
      · exact (Finmap.lookup_erase_ne ht).trans ((hinv.counts t ht).present hroot)
      · exact (Finmap.lookup_erase_ne ht).trans ((hinv.counts t ht).absent hno)
  · intro j t
    change s'.HasTenant j t ↔ _
    by_cases ht : t = tenant
    · subst ht
      exact ⟨fun hj => absurd hj (hgone j), fun hj => absurd rfl hj.2⟩
    · rw [hkeep j t ht]
      exact ⟨fun hj => ⟨hj, ht⟩, And.left⟩

end Tree

end Sglang.Gateway
