import Mathlib.Order.Lattice.Nat
import Sglang.Gateway.TenantTreeInvariant

/-!
# Lookups in the Routing Tree

Both lookups follow the text from the root and stop at the first character that no admitted node
has. The nodes that a lookup admits are closed upwards, so where it stops is the longest prefix of
the text that an admitted node spells.

- `matchLoop_spec`: the loop returns the longest prefix,
- `prefixMatchWithCounts_spec`, `prefixMatchTenant_spec`: the lookups.
-/

namespace Sglang.Gateway

open List
open Lib
open Lib.PageTrie

namespace Tree

variable {s : Tree} {word : Nat → List Char}

/-! ## Section 1: The loop -/

/-- A word that goes on after a node by a character goes on through the child of the character. -/
theorem Shape.through_child (h : s.Shape word) {prev m j : Nat} {p n : Node} {c : Char}
    (hp : s.nodes prev = some p) (hchild : p.children.lookup c = some m)
    (hj : s.nodes j = some n) (hpre : word prev ++ [c] <+: word j) : word m <+: word j := by
  obtain ⟨matched, hm, hpar, hhead⟩ := h.child hp hchild
  have hlong : (word prev).length + 1 ≤ (word j).length := by
    have := hpre.length_le
    simpa using this
  have hne : prev ≠ j := by
    rintro rfl
    omega
  obtain ⟨k, ck, hck, hkpar, hkj⟩ := h.trie.child_on_path (heap_at hp) (heap_at hj)
    ((prefix_append _ _).trans hpre) hne
  have hkm : k = m := by
    apply h.trie.child_unique hck hkpar (heap_at hm) hpar (w := word prev ++ [c])
    · apply prefix_of_prefix_length_le hpre hkj
      have hlt := h.trie.word_length_lt hck hkpar
      rw [length_append, length_singleton]
      omega
    · rw [h.word_child hm hpar]
      apply (prefix_append_right_inj _).mpr
      cases htext : matched.text.text with
      | nil => simp [htext] at hhead
      | cons d l =>
        simp only [htext, head?_cons, Option.some.injEq] at hhead
        rw [hhead]
        exact ⟨l, rfl⟩
    · simp
  exact hkm ▸ hkj

theorem next_of_lcp {u v l : List Char} {c : Char} (hlt : u.length < lcp (u ++ c :: l) v) :
    u ++ [c] <+: v := by
  have htake := (le_lcp_iff.mp (show u.length + 1 ≤ lcp (u ++ c :: l) v from hlt)).2.2
  have hfirst : (u ++ c :: l).take (u.length + 1) = u ++ [c] := by
    rw [take_append]
    simp
  rw [← hfirst, htake]
  exact take_prefix _ _

/-- What a lookup of a text returns: a node it may enter, and the longest prefix of the text that
such nodes spell, which ends in this node. -/
structure Stops (s : Tree) (word : Nat → List Char) (enters : Node → Bool) (text : List Char)
    (curr k : Nat) : Prop where
  node : ∃ n, s.nodes curr = some n ∧ (curr = root ∨ enters n = true)
  le : k ≤ text.length
  spelt : text.take k <+: word curr
  longest : ∀ {j m}, s.nodes j = some m → enters m = true → lcp text (word j) ≤ k
  least : ∀ {j m}, s.nodes j = some m → text.take k <+: word j → word curr <+: word j

theorem matchLoop_spec (h : s.Shape word) {enters : Node → Bool} (text : List Char)
    (hup : ∀ {i j n m}, s.nodes i = some n → s.nodes j = some m → word i <+: word j →
      enters m = true → enters n = true) :
    ∀ (fuel : Nat) {prev : Nat} {p : Node} {remaining : List Char}, s.nodes prev = some p →
      (prev = root ∨ enters p = true) → text = word prev ++ remaining → remaining.length < fuel →
      ∃ curr k, s.matchLoop enters fuel prev remaining (word prev).length = some (curr, k) ∧
        s.Stops word enters text curr k := by
  intro fuel
  induction fuel with
  | zero => exact fun _ _ _ hfuel => absurd hfuel (Nat.not_lt_zero _)
  | succ fuel ih =>
    intro prev p remaining hp hadm htext hfuel
    cases remaining with
    | nil =>
      rw [append_nil] at htext
      refine ⟨prev, (word prev).length, rfl, ⟨p, hp, hadm⟩, by rw [htext], ?_, ?_, ?_⟩
      · rw [htext, take_length]
      · intro j m _ _
        rw [← htext]
        exact lcp_le_left _ _
      · intro j m _ hpre
        rwa [htext, take_length] at hpre
    | cons c rest =>
      have hhere : text.take (word prev).length <+: word prev := by
        rw [htext, take_left]
      have hle : (word prev).length ≤ text.length := by
        rw [htext, length_append]
        exact Nat.le_add_right _ _
      have hleast : ∀ {j m}, s.nodes j = some m → text.take (word prev).length <+: word j →
          word prev <+: word j := by
        intro j m _ hpre
        rwa [htext, take_left] at hpre
      cases hchild : p.children.lookup c with
      | none =>
        refine ⟨prev, (word prev).length, by simp [matchLoop, hp, hchild],
          ⟨p, hp, hadm⟩, hle, hhere, ?_, hleast⟩
        intro j m hj _
        have hfree : p.cell.child (firstOf ((text.drop (word prev).length).take 1)) = none := by
          rw [htext, drop_left]
          exact hchild
        have hmax := h.trie.maximal_of_no_child (w := text) (heap_at hp)
          (by rw [htext]; exact prefix_append _ _) (.inr hfree) (heap_at hj)
          (v := text.take (lcp text (word j))) (List.take_prefix _ _)
          (by rw [take_lcp_eq]; exact take_prefix _ _) (one_dvd _)
        rwa [length_take, min_eq_left (lcp_le_left _ _)] at hmax
      | some m =>
        obtain ⟨matched, hm, hpar, hhead⟩ := h.child hp hchild
        have hwordm := h.word_child hm hpar
        -- a node that shares more of the text than `prev` is below `m`
        have hbelow : ∀ {j n}, s.nodes j = some n → (word prev).length < lcp text (word j) →
            word m <+: word j := by
          intro j n hj hlt
          rw [htext] at hlt
          exact h.through_child hp hchild hj (next_of_lcp hlt)
        by_cases henters : enters matched = true
        · set k := lcp (c :: rest) matched.text.text with hk
          have hlcp : lcp text (word m) = (word prev).length + k := by
            rw [htext, hwordm, lcp_append_left]
          by_cases hall : k = matched.text.charCount
          · have htake : matched.text.text = (c :: rest).take k := by
              rw [hk, take_lcp_eq, ← hk, hall, matched.text.count_eq, take_length]
            have hlen : (word prev).length + k = (word m).length := by
              rw [hwordm, length_append, hall, matched.text.count_eq]
            have hpos : 0 < k := by
              rw [hall, matched.text.count_eq]
              exact length_pos_of_ne_nil
                (h.trie.label_ne (heap_at hm) (h.ne_root hm hpar))
            obtain ⟨curr, k', heq, hstops⟩ := @ih m matched ((c :: rest).drop k) hm
              (.inr henters) (by rw [hwordm, htake, append_assoc, take_append_drop, htext])
              (by
                rw [length_drop]
                simp only [length_cons] at hfuel ⊢
                omega)
            refine ⟨curr, k', ?_, hstops⟩
            simp [matchLoop, hp, hchild, hm, henters, sharedPrefixCount_eq, ← hk, hall.symm,
              advanceByChars_eq, hlen, heq]
          · refine ⟨m, (word prev).length + k, by
              simp [matchLoop, hp, hchild, hm, henters, sharedPrefixCount_eq, ← hk, hall],
              ⟨matched, hm, .inr henters⟩, hlcp ▸ lcp_le_left _ _, ?_, ?_, ?_⟩
            · rw [← hlcp, take_lcp_eq]
              exact take_prefix _ _
            · intro j n hj _
              by_contra hgt
              have hgt := not_le.mp hgt
              obtain ⟨r, hr⟩ := hbelow hj (by omega)
              -- the label of `m` goes on, so what `j` shares with the text, `m` shares as well
              have hlong : (word prev).length + k + 1 ≤ (word m).length := by
                have := lcp_le_right (c :: rest) matched.text.text
                rw [← hk, ← matched.text.count_eq] at this
                rw [hwordm, length_append, ← matched.text.count_eq]
                omega
              obtain ⟨hlt, _, hagree⟩ :=
                le_lcp_iff.mp (show (word prev).length + k + 1 ≤ lcp text (word j) from hgt)
              have hmore : (word prev).length + k + 1 ≤ lcp text (word m) := by
                refine le_lcp_iff.mpr ⟨hlt, hlong, ?_⟩
                rw [hagree, ← hr, take_append_of_le_length hlong]
              omega
            · -- the first character is shared, so the prefix ends in the label of `m`
              intro j n hj hpre
              obtain ⟨l, hl⟩ : ∃ l, matched.text.text = c :: l := by
                cases htext' : matched.text.text with
                | nil => simp [htext'] at hhead
                | cons d l =>
                  rw [htext', head?_cons, Option.some.injEq] at hhead
                  exact ⟨l, by rw [hhead]⟩
              have hpos : 1 ≤ k := by
                rw [hk, hl, le_lcp_iff]
                simp
              have hlen : (word prev).length + k ≤ text.length := hlcp ▸ lcp_le_left _ _
              apply hbelow hj
              refine lt_of_lt_of_le (Nat.lt_add_of_pos_right hpos) (le_lcp_iff.mpr ⟨hlen, ?_, ?_⟩)
              · have hle' := hpre.length_le
                rwa [length_take, min_eq_left hlen] at hle'
              · have htake := prefix_iff_eq_take.mp hpre
                rwa [length_take, min_eq_left hlen] at htake
        · refine ⟨prev, (word prev).length, by
            simp [matchLoop, hp, hchild, hm, henters], ⟨p, hp, hadm⟩, hle, hhere, ?_, hleast⟩
          intro j n hj hjenters
          by_contra hgt
          exact henters (hup hm hj (hbelow hj (not_le.mp hgt)) hjenters)

theorem matchLoop_root (h : s.Shape word) (enters : Node → Bool) (text : List Char)
    (hup : ∀ {i j n m}, s.nodes i = some n → s.nodes j = some m → word i <+: word j →
      enters m = true → enters n = true) :
    ∃ curr k, s.matchLoop enters (text.length + 1) root text 0 = some (curr, k) ∧
      s.Stops word enters text curr k := by
  obtain ⟨r, hr, _⟩ := h.root
  have hspec := matchLoop_spec h text hup (text.length + 1) hr (.inl rfl)
    (by rw [h.word_root]; rfl) (Nat.lt_succ_self _)
  rw [h.word_root] at hspec
  exact hspec

/-! ## Section 2: `prefix_match_with_counts` -/

/-- The length of the longest prefix of a text that it shares with one of a set of texts. -/
noncomputable def longestShared (texts : Set (List Char)) (text : List Char) : Nat :=
  sSup {k | ∃ w ∈ texts, k = lcp text w}

theorem lcp_take_self {text : List Char} {k : Nat} (hle : k ≤ text.length) :
    lcp text (text.take k) = k := by
  have hlen : (text.take k).length = k := by rw [length_take, min_eq_left hle]
  apply le_antisymm
  · exact (lcp_le_right _ _).trans hlen.le
  · exact le_lcp_iff.mpr ⟨hle, hlen.ge, by rw [take_take, min_self]⟩

theorem longestShared_eq {texts : Set (List Char)} {text : List Char} {k : Nat}
    (hle : k ≤ text.length) (hheld : k = 0 ∨ text.take k ∈ texts)
    (hmax : ∀ w ∈ texts, lcp text w ≤ k) : longestShared texts text = k := by
  have hbound : k ∈ upperBounds {k | ∃ w ∈ texts, k = lcp text w} := by
    rintro n ⟨w, hw, rfl⟩
    exact hmax w hw
  unfold longestShared
  rcases hheld with rfl | hheld
  · rcases Set.eq_empty_or_nonempty {k | ∃ w ∈ texts, k = lcp text w} with hempty | hne
    · rw [hempty]
      exact csSup_empty
    · exact Nat.le_zero.mp (csSup_le hne hbound)
  · apply IsGreatest.csSup_eq
    exact ⟨⟨_, hheld, (lcp_take_self hle).symm⟩, hbound⟩

theorem lcp_le_of_isPrefix {u v w : List Char} (hpre : v <+: w) : lcp u v ≤ lcp u w := by
  obtain ⟨hu, hv, htake⟩ := le_lcp_iff.mp (le_refl (lcp u v))
  refine le_lcp_iff.mpr ⟨hu, hv.trans hpre.length_le, ?_⟩
  obtain ⟨r, rfl⟩ := hpre
  rw [htake, take_append_of_le_length hv]

theorem pickTenant_spec (order : DashOrder) (n : Node) :
    SameTenants n (pickTenant order n).2 ∧
      ((∃ t, t ∈ n.tenantLastAccessTime) →
        (pickTenant order n).1 ∈ n.tenantLastAccessTime) := by
  have hfirst : (∃ t, t ∈ n.tenantLastAccessTime) →
      (order.tenants.list n.tenantLastAccessTime.keys).head?.getD "empty" ∈
        n.tenantLastAccessTime := by
    rintro ⟨t, ht⟩
    have hmem : ∀ x, x ∈ order.tenants.list n.tenantLastAccessTime.keys ↔
        x ∈ n.tenantLastAccessTime := fun x => (order.tenants.mem _ x).trans Finmap.mem_keys
    cases hlist : order.tenants.list n.tenantLastAccessTime.keys with
    | nil => exact absurd ((hmem t).mpr ht) (by simp [hlist])
    | cons x xs =>
      rw [head?_cons, Option.getD_some, ← hmem, hlist]
      exact mem_cons_self ..
  unfold pickTenant
  cases hlast : n.lastTenant with
  | none => exact ⟨⟨rfl, rfl, fun _ => Iff.rfl⟩, hfirst⟩
  | some t =>
    by_cases ht : t ∈ n.tenantLastAccessTime
    · simp only [if_pos ht]
      exact ⟨⟨rfl, rfl, fun _ => Iff.rfl⟩, fun _ => ht⟩
    · simp only [ht, if_false]
      exact ⟨⟨rfl, rfl, fun _ => Iff.rfl⟩, hfirst⟩

theorem SameTenants.trans {n n' n'' : Node} (h : SameTenants n n') (h' : SameTenants n' n'') :
    SameTenants n n'' :=
  ⟨h'.cell.trans h.cell, h'.count.trans h.count, fun t => (h'.tenants t).trans (h.tenants t)⟩

theorem Stops.lcp_le {enters : Node → Bool} {text : List Char} {curr k : Nat}
    (hstops : s.Stops word enters text curr k) {t : String}
    (hentered : ∀ {j n}, s.nodes j = some n → t ∈ n.tenantLastAccessTime → enters n = true)
    {w : List Char} (hw : s.Holds word t w) : lcp text w ≤ k := by
  obtain ⟨j, ⟨n, hj, ht⟩, hpre⟩ := hw
  exact (lcp_le_of_isPrefix hpre).trans (hstops.longest hj (hentered hj ht))

theorem Stops.eq_zero {enters : Node → Bool} {text : List Char} {curr k : Nat}
    (hstops : s.Stops word enters text curr k) (h : s.Shape word) (hroot : curr = root) :
    k = 0 := by
  have hnil := hstops.spelt
  rw [hroot, h.word_root, prefix_nil, take_eq_nil_iff] at hnil
  rcases hnil with hzero | hempty
  · exact hzero
  · have hle := hstops.le
    rw [hempty] at hle
    exact Nat.le_zero.mp hle

/-- `prefix_match_with_counts` returns the length of the longest prefix of the text that a tenant
holds, and a tenant that holds it. Where there is no tenant, the epoch must not be one at which the
access is recorded. -/
theorem prefixMatchWithCounts_spec (h : s.Inv word) (order : DashOrder) (epoch : Nat)
    (text : List Char) :
    ∃ s' r, s.prefixMatchWithCounts order epoch text = some (s', r) ∧
      r.matchedCharCount = longestShared {w | ∃ t, s.Holds word t w} text ∧
      ((∃ t, s.HasTenant root t) → s.Holds word r.tenant (text.take r.matchedCharCount)) ∧
      ((∃ t, s.HasTenant root t) ∨ epoch &&& 0x7 ≠ 0 →
        s'.Inv word ∧ ∀ j t, s'.HasTenant j t ↔ s.HasTenant j t) := by
  obtain ⟨curr, k, heq, hstops⟩ := matchLoop_root h.shape (fun _ => true) text
    (fun _ _ _ _ => rfl)
  obtain ⟨n, hn, _⟩ := hstops.node
  obtain ⟨hsame, hpick⟩ := pickTenant_spec order n
  -- a node without tenants is the root of a tree without tenants
  have htenants : (∃ t, s.HasTenant root t) → ∃ t, t ∈ n.tenantLastAccessTime := by
    rintro ⟨t, ht⟩
    by_cases hroot : curr = root
    · subst hroot
      exact ⟨t, (hasTenant_iff hn t).mp ht⟩
    · exact h.tenanted.held hn hroot
  refine ⟨s.setNode curr (if epoch &&& 0x7 = 0
      then (pickTenant order n).2.access (pickTenant order n).1 epoch
      else (pickTenant order n).2), ⟨(pickTenant order n).1, k, text.length⟩,
    by simp [prefixMatchWithCounts, heq, hn], ?_, ?_, ?_⟩
  · refine (longestShared_eq hstops.le ?_ ?_).symm
    · by_cases hroot : curr = root
      · exact .inl (hstops.eq_zero h.shape hroot)
      · obtain ⟨t, ht⟩ := h.tenanted.held hn hroot
        exact .inr ⟨t, curr, ⟨n, hn, ht⟩, hstops.spelt⟩
    · rintro w ⟨t, hw⟩
      exact hstops.lcp_le (fun _ _ => rfl) hw
  · exact fun hroot => ⟨curr, ⟨n, hn, hpick (htenants hroot)⟩, hstops.spelt⟩
  · intro hguard
    apply h.touch hn
    split
    · next hzero =>
      have hmem := hpick (htenants (hguard.resolve_right fun hne => hne hzero))
      exact hsame.trans (sameTenants_access ((hsame.tenants _).mpr hmem) epoch)
    · exact hsame

/-! ## Section 3: `prefix_match_tenant` -/

/-- `prefix_match_tenant` returns the longest prefix of the text that the tenant holds. -/
theorem prefixMatchTenant_spec (h : s.Inv word) (epoch : Nat) (text : List Char) (tenant : String) :
    ∃ s', s.prefixMatchTenant epoch text tenant =
        some (s', text.take (longestShared {w | s.Holds word tenant w} text)) ∧
      s'.Inv word ∧ ∀ j t, s'.HasTenant j t ↔ s.HasTenant j t := by
  obtain ⟨curr, k, heq, hstops⟩ := matchLoop_root h.shape
    (fun n => decide (tenant ∈ n.tenantLastAccessTime)) text (by
      intro i j n m hi hj hpre hmem
      rw [decide_eq_true_eq] at hmem ⊢
      exact (hasTenant_iff hi tenant).mp (h.tenanted.above h.shape hi ⟨m, hj, hmem⟩ hpre))
  obtain ⟨n, hn, hadm⟩ := hstops.node
  have hlongest : longestShared {w | s.Holds word tenant w} text = k := by
    refine longestShared_eq hstops.le ?_ ?_
    · rcases hadm with hroot | hmem
      · exact .inl (hstops.eq_zero h.shape hroot)
      · exact .inr ⟨curr, ⟨n, hn, of_decide_eq_true hmem⟩, hstops.spelt⟩
    · intro w hw
      exact hstops.lcp_le (fun _ ht => decide_eq_true ht) hw
  rw [hlongest]
  by_cases hmem : tenant ∈ n.tenantLastAccessTime
  · obtain ⟨hinv, hkeep⟩ := h.touch hn (sameTenants_access hmem epoch)
    exact ⟨_, by simp [prefixMatchTenant, heq, hn, hmem, takeChars_eq], hinv, hkeep⟩
  · exact ⟨s, by simp [prefixMatchTenant, heq, hn, hmem, takeChars_eq], h, fun _ _ => Iff.rfl⟩

end Tree

end Sglang.Gateway
