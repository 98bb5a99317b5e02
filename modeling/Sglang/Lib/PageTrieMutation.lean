import Sglang.Lib.PageTrie

/-!
# Mutations of Page Tries

The three mutations of a radix tree on a heap: hanging a new leaf, cutting the label of a cell
at a page boundary, and removing a leaf. Each is a point update of the heap, keeps the trie
well formed, keeps what is spelt along the surviving paths, and changes the paths in one known
way:

- `addLeaf` keeps every path,
- `split` inserts the fresh upper half above the cut cell (`insertAbove`),
- `removeLeaf` keeps every path that does not end in the removed cell.

`x` is always a fresh identity, `p` the parent cell and `pc` its content before the mutation.
-/

namespace Sglang.Lib.PageTrie

open List Function

variable {α β κ : Type*} [DecidableEq κ]

/-! ## Section 1: Definitions -/


def Cell.setChild (k : κ) (v : Option Nat) (c : Cell α κ) : Cell α κ :=
  { c with child := update c.child k v }

/-- A fresh childless cell below `p`. -/
def leafCell (p : Nat) (l : List α) : Cell α κ := ⟨some p, l, fun _ => none⟩

/-- The upper half of a cut cell: the first `k` letters, with `c` as its only child. -/
def frontCell (idx : List α → κ) (ps p c : Nat) (l : List α) (k : Nat) : Cell α κ :=
  ⟨some p, l.take k, update (fun _ => none) (idx ((l.drop k).take ps)) (some c)⟩

/-- The lower half of a cut cell: the remaining letters, below `x`. -/
def backCell (x : Nat) (cc : Cell α κ) (k : Nat) : Cell α κ :=
  { cc with parent := some x, label := cc.label.drop k }

/-- Hang a fresh childless cell `x` with label `l` under `p`. -/
def addLeaf (idx : List α → κ) (ps : Nat) (h : Heap α κ) (p : Nat) (pc : Cell α κ) (x : Nat)
    (l : List α) : Heap α κ :=
  update (update h x (some (leafCell p l))) p
    (some (pc.setChild (idx (l.take ps)) (some x)))

/-- Cut the label of `c` after `k` letters: a fresh cell `x` takes the front and `c` keeps the
rest below it. -/
def split (idx : List α → κ) (ps : Nat) (h : Heap α κ) (p : Nat) (pc : Cell α κ) (c : Nat)
    (cc : Cell α κ) (x k : Nat) : Heap α κ :=
  update
    (update (update h x (some (frontCell idx ps p c cc.label k))) c
      (some (backCell x cc k))) p
    (some (pc.setChild (idx (cc.label.take ps)) (some x)))

/-- Unlink the childless cell `n` with label `l` from its parent `p`. -/
def removeLeaf (idx : List α → κ) (ps : Nat) (h : Heap α κ) (p : Nat) (pc : Cell α κ) (n : Nat)
    (l : List α) : Heap α κ :=
  update (update h p (some (pc.setChild (idx (l.take ps)) none))) n none

variable {idx : List α → κ} {ps root : Nat} {h : Heap α κ} {word : Nat → List α}

omit [DecidableEq κ] in
theorem ne_of_dead {x n : Nat} {c : Cell α κ} (hx : h x = none) (hn : h n = some c) : n ≠ x := by
  rintro rfl
  simp [hx] at hn

omit [DecidableEq κ] in
theorem WellFormed.parent_ne_of_dead (wf : WellFormed idx ps root h word) {x : Nat}
    (hx : h x = none) {n q : Nat} {c : Cell α κ} (hn : h n = some c) (hq : c.parent = some q) :
    q ≠ x := by
  obtain ⟨p, pc, hp, hpc⟩ := wf.parent_cell hn (wf.ne_root_of_parent hn hq)
  rw [hq] at hp
  cases hp
  exact ne_of_dead hx hpc

omit [DecidableEq κ] in
theorem WellFormed.filed_at (wf : WellFormed idx ps root h word) {n p : Nat} {c pc : Cell α κ}
    (hn : h n = some c) (hp : c.parent = some p) (hpc : h p = some pc) :
    pc.child (idx (c.label.take ps)) = some n := by
  obtain ⟨p', pc', hp', hpc', hfile⟩ := wf.filed hn (wf.ne_root_of_parent hn hp)
  rw [hp] at hp'
  cases hp'
  rw [hpc] at hpc'
  cases hpc'
  exact hfile

/-! ## Section 2: New leaves -/

section AddLeaf

variable {p x : Nat} {pc : Cell α κ} {l : List α}

theorem addLeaf_new (hpx : p ≠ x) : addLeaf idx ps h p pc x l x = some (leafCell p l) := by
  simp [addLeaf, hpx.symm]

theorem addLeaf_parent :
    addLeaf idx ps h p pc x l p = some (pc.setChild (idx (l.take ps)) (some x)) := by
  simp [addLeaf]

theorem addLeaf_other {i : Nat} (hx : i ≠ x) (hp : i ≠ p) :
    addLeaf idx ps h p pc x l i = h i := by
  simp [addLeaf, hx, hp]

theorem addLeaf_old (hp : h p = some pc) {i : Nat} {ci : Cell α κ} (hx : i ≠ x)
    (hi : addLeaf idx ps h p pc x l i = some ci) :
    ∃ c, h i = some c ∧ c.parent = ci.parent ∧ c.label = ci.label := by
  by_cases hip : i = p
  · subst hip
    rw [addLeaf_parent] at hi
    cases hi
    exact ⟨pc, hp, rfl, rfl⟩
  · rw [addLeaf_other hx hip] at hi
    exact ⟨ci, hi, rfl, rfl⟩

theorem addLeaf_keeps (hp : h p = some pc) {i : Nat} {c : Cell α κ} (hx : i ≠ x)
    (hi : h i = some c) :
    ∃ ci, addLeaf idx ps h p pc x l i = some ci ∧ ci.parent = c.parent ∧ ci.label = c.label := by
  by_cases hip : i = p
  · subst hip
    rw [hp] at hi
    cases hi
    exact ⟨_, addLeaf_parent, rfl, rfl⟩
  · exact ⟨c, by rw [addLeaf_other hx hip, hi], rfl, rfl⟩

theorem Spells.addLeaf {lab w : Nat → List β} (lab' : Nat → List β)
    (wf : WellFormed idx ps root h word)
    (sp : Spells root h lab w) (hp : h p = some pc) (hx : h x = none)
    (hlab : ∀ i, i ≠ x → lab' i = lab i) :
    Spells root (addLeaf idx ps h p pc x l) lab' (update w x (w p ++ lab' x)) where
  at_root := by
    obtain ⟨rc, hrc, _⟩ := wf.root_cell
    rw [update_of_ne (ne_of_dead hx hrc)]
    exact sp.at_root
  at_child := by
    have hpx := ne_of_dead hx hp
    intro n c q hn hq
    by_cases hnx : n = x
    · subst hnx
      rw [addLeaf_new hpx] at hn
      cases hn
      cases hq
      rw [update_self, update_of_ne hpx]
    · obtain ⟨c', hc', hpar, _⟩ := addLeaf_old hp hnx hn
      have hq' := hpar.trans hq
      rw [update_of_ne hnx, update_of_ne (wf.parent_ne_of_dead hx hc' hq'),
        sp.at_child hc' hq', hlab n hnx]

/-- A new leaf under a cell that has no child on that page keeps the trie well formed. -/
theorem WellFormed.addLeaf (wf : WellFormed idx ps root h word) (hp : h p = some pc)
    (hx : h x = none) (hl : l ≠ []) (hdvd : ps ∣ l.length)
    (hfree : pc.child (idx (l.take ps)) = none) :
    WellFormed idx ps root (addLeaf idx ps h p pc x l) (update word x (word p ++ l)) := by
  obtain ⟨rc, hrc, hrpar, hrlab⟩ := wf.root_cell
  have hpx : p ≠ x := ne_of_dead hx hp
  have hlabx : labelOf (PageTrie.addLeaf idx ps h p pc x l) x = l := labelOf_eq (addLeaf_new hpx)
  refine
    { page_pos := wf.page_pos
      root_cell := ?_
      spells := ?_
      filed := ?_
      label_ne := ?_
      label_dvd := ?_
      child_cell := ?_ }
  · obtain ⟨c, hc, hpar, hlab⟩ := addLeaf_keeps (l := l) hp
      (ne_of_dead hx hrc) hrc
    exact ⟨c, hc, hpar.trans hrpar, hlab.trans hrlab⟩
  · have := wf.spells.addLeaf (l := l)
      (labelOf (PageTrie.addLeaf idx ps h p pc x l)) wf hp hx (by
        intro i hi
        by_cases hip : i = p
        · subst hip
          rw [labelOf_eq addLeaf_parent, labelOf_eq hp]
          rfl
        · simp [labelOf, addLeaf_other hi hip])
    rwa [hlabx] at this
  · -- a cell is filed under the first page of its label: the leaf under that of `l`
    intro n c hn hroot
    by_cases hnx : n = x
    · subst hnx
      rw [addLeaf_new hpx] at hn
      cases hn
      exact ⟨p, _, rfl, addLeaf_parent, by simp [Cell.setChild, leafCell]⟩
    · obtain ⟨c', hc', hpar, hlab⟩ := addLeaf_old hp hnx hn
      obtain ⟨q, qc, hq, hqc, hfile⟩ := wf.filed hc' hroot
      rw [← hpar, ← hlab]
      by_cases hqp : q = p
      · subst hqp
        rw [hp] at hqc
        cases hqc
        refine ⟨q, _, hq, addLeaf_parent, ?_⟩
        have hne : idx (c'.label.take ps) ≠ idx (l.take ps) := by
          intro heq
          rw [heq, hfree] at hfile
          cases hfile
        simp [Cell.setChild, update_of_ne hne, hfile]
      · exact ⟨q, qc, hq, by rw [addLeaf_other (ne_of_dead hx hqc) hqp, hqc], hfile⟩
  · intro n c hn hroot
    by_cases hnx : n = x
    · subst hnx
      rw [addLeaf_new hpx] at hn
      cases hn
      exact hl
    · obtain ⟨c', hc', _, hlab⟩ := addLeaf_old hp hnx hn
      rw [← hlab]
      exact wf.label_ne hc' hroot
  · intro n c hn
    by_cases hnx : n = x
    · subst hnx
      rw [addLeaf_new hpx] at hn
      cases hn
      exact hdvd
    · obtain ⟨c', hc', _, hlab⟩ := addLeaf_old hp hnx hn
      rw [← hlab]
      exact wf.label_dvd hc'
  · -- an entry names a live cell: the leaf has no entries
    intro q qc k n hq hchild
    by_cases hqx : q = x
    · subst hqx
      rw [addLeaf_new hpx] at hq
      cases hq
      simp [leafCell] at hchild
    · -- an entry of an old cell is old, except the new entry of `p`
      have hcases : (q = p ∧ k = idx (l.take ps) ∧ n = x) ∨
          ∃ qc', h q = some qc' ∧ qc'.child k = some n := by
        by_cases hqp : q = p
        · subst hqp
          rw [addLeaf_parent] at hq
          cases hq
          by_cases hk : k = idx (l.take ps)
          · subst hk
            simp [Cell.setChild] at hchild
            exact .inl ⟨rfl, rfl, hchild.symm⟩
          · simp [Cell.setChild, update_of_ne hk] at hchild
            exact .inr ⟨pc, hp, hchild⟩
        · rw [addLeaf_other hqx hqp] at hq
          exact .inr ⟨qc, hq, hchild⟩
      rcases hcases with ⟨rfl, rfl, rfl⟩ | ⟨qc', hq', hchild'⟩
      · exact ⟨_, addLeaf_new hpx, rfl, rfl⟩
      · obtain ⟨c, hc, hcpar, hclab⟩ := wf.child_cell hq' hchild'
        obtain ⟨ci, hci, hpar, hlab⟩ := addLeaf_keeps (l := l) hp
          (ne_of_dead hx hc) hc
        exact ⟨ci, hci, hpar.trans hcpar, by rw [hlab]; exact hclab⟩

theorem PathUp.addLeaf {n : Nat} {path : List Nat} (hp : h p = some pc) (hx : h x = none)
    (hpath : PathUp h root n path) : PathUp (addLeaf idx ps h p pc x l) root n path := by
  refine hpath.congr fun m _ c hc => ?_
  obtain ⟨ci, hci, hpar, _⟩ := addLeaf_keeps (l := l) hp
    (ne_of_dead hx hc) hc
  exact ⟨ci, hci, hpar⟩

end AddLeaf

/-! ## Section 3: Cut cells -/

section Split

variable {p c x k : Nat} {pc cc : Cell α κ}

theorem split_front (hxc : x ≠ c) (hxp : x ≠ p) :
    split idx ps h p pc c cc x k x = some (frontCell idx ps p c cc.label k) := by
  simp [split, hxc, hxp]

theorem split_back (hcp : c ≠ p) : split idx ps h p pc c cc x k c = some (backCell x cc k) := by
  simp [split, hcp]

theorem split_parent :
    split idx ps h p pc c cc x k p =
      some (pc.setChild (idx (cc.label.take ps)) (some x)) := by
  simp [split]

theorem split_other {i : Nat} (hx : i ≠ x) (hc : i ≠ c) (hp : i ≠ p) :
    split idx ps h p pc c cc x k i = h i := by
  simp [split, hx, hc, hp]

theorem split_old (hp : h p = some pc) {i : Nat} {ci : Cell α κ} (hx : i ≠ x) (hc : i ≠ c)
    (hi : split idx ps h p pc c cc x k i = some ci) :
    ∃ c, h i = some c ∧ c.parent = ci.parent ∧ c.label = ci.label := by
  by_cases hip : i = p
  · subst hip
    rw [split_parent] at hi
    cases hi
    exact ⟨pc, hp, rfl, rfl⟩
  · rw [split_other hx hc hip] at hi
    exact ⟨ci, hi, rfl, rfl⟩

theorem split_keeps (hp : h p = some pc) {i : Nat} {ci : Cell α κ} (hx : i ≠ x) (hc : i ≠ c)
    (hi : h i = some ci) :
    ∃ ci', split idx ps h p pc c cc x k i = some ci' ∧ ci'.parent = ci.parent ∧
      ci'.label = ci.label := by
  by_cases hip : i = p
  · subst hip
    rw [hp] at hi
    cases hi
    exact ⟨_, split_parent, rfl, rfl⟩
  · exact ⟨ci, by rw [split_other hx hc hip, hi], rfl, rfl⟩

/-- Spellings survive a cut: the upper half spells the part of the label it took. -/
theorem Spells.split {lab w : Nat → List β} (lab' : Nat → List β)
    (wf : WellFormed idx ps root h word)
    (sp : Spells root h lab w) (hp : h p = some pc) (hc : h c = some cc) (hpar : cc.parent = some p)
    (hx : h x = none) (hlab : ∀ i, i ≠ x → i ≠ c → lab' i = lab i)
    (hcut : lab c = lab' x ++ lab' c) :
    Spells root (split idx ps h p pc c cc x k) lab' (update w x (w p ++ lab' x)) where
  at_root := by
    obtain ⟨rc, hrc, _⟩ := wf.root_cell
    rw [update_of_ne (ne_of_dead hx hrc)]
    exact sp.at_root
  at_child := by
    have hpx := ne_of_dead hx hp
    have hcx := ne_of_dead hx hc
    have hcp := (wf.parent_ne_self hc hpar).symm
    intro n ci q hn hq
    by_cases hnx : n = x
    · subst hnx
      rw [split_front hcx.symm hpx.symm] at hn
      cases hn
      cases hq
      rw [update_self, update_of_ne hpx]
    by_cases hnc : n = c
    · subst hnc
      rw [split_back hcp] at hn
      cases hn
      cases hq
      rw [update_of_ne hnx, update_self, sp.at_child hc hpar, hcut,
        append_assoc]
    · obtain ⟨c', hc', hpar', _⟩ := split_old hp hnx hnc hn
      have hq' := hpar'.trans hq
      rw [update_of_ne hnx, update_of_ne (wf.parent_ne_of_dead hx hc' hq'),
        sp.at_child hc' hq', hlab n hnx hnc]

section

variable (wf : WellFormed idx ps root h word) (hp : h p = some pc) (hc : h c = some cc)
  (hpar : cc.parent = some p) (hx : h x = none)
include wf hp hc hpar hx

/-- Every cell is filed under the first page of its label: the front half in the place of the cut
cell. -/
theorem WellFormed.filed_split (hps : ps ≤ k) {n : Nat}
    {ci : Cell α κ} (hn : PageTrie.split idx ps h p pc c cc x k n = some ci) (hroot : n ≠ root) :
    ∃ q qc, ci.parent = some q ∧ PageTrie.split idx ps h p pc c cc x k q = some qc ∧
      qc.child (idx (ci.label.take ps)) = some n := by
  have hpx := ne_of_dead hx hp
  have hcx := ne_of_dead hx hc
  have hcp := (wf.parent_ne_self hc hpar).symm
  by_cases hnx : n = x
  · subst hnx
    rw [split_front hcx.symm hpx.symm] at hn
    cases hn
    exact ⟨p, _, rfl, split_parent, by simp [Cell.setChild, frontCell, take_take, min_eq_left hps]⟩
  by_cases hnc : n = c
  · subst hnc
    rw [split_back hcp] at hn
    cases hn
    exact ⟨x, _, rfl, split_front hcx.symm hpx.symm, by simp [frontCell, backCell]⟩
  · obtain ⟨c', hc', hpar', hlab⟩ := split_old hp hnx hnc hn
    obtain ⟨q, qc, hq, hqc, hfile⟩ := wf.filed hc' hroot
    rw [← hpar', ← hlab]
    by_cases hqp : q = p
    · -- a sibling of the cut cell has another first page
      subst hqp
      rw [hp] at hqc
      cases hqc
      refine ⟨q, _, hq, split_parent, ?_⟩
      have hne : idx (c'.label.take ps) ≠ idx (cc.label.take ps) := by
        intro heq
        rw [heq, wf.filed_at hc hpar hp] at hfile
        cases hfile
        exact hnc rfl
      simp [Cell.setChild, update_of_ne hne, hfile]
    by_cases hqc' : q = c
    · subst hqc'
      rw [hc] at hqc
      cases hqc
      exact ⟨q, _, hq, split_back hcp, hfile⟩
    · exact ⟨q, qc, hq, by rw [split_other (ne_of_dead hx hqc) hqc' hqp, hqc], hfile⟩

/-- Entries are old, except that of `p` for the front half and that of `x` for the back half. -/
theorem WellFormed.entry_split {q n : Nat} {j : κ}
    {qc : Cell α κ} (hq : PageTrie.split idx ps h p pc c cc x k q = some qc)
    (hchild : qc.child j = some n) :
    (q = p ∧ j = idx (cc.label.take ps) ∧ n = x) ∨
      (q = x ∧ j = idx ((cc.label.drop k).take ps) ∧ n = c) ∨
      (n ≠ c ∧ ∃ qc', h q = some qc' ∧ qc'.child j = some n) := by
  have hpx := ne_of_dead hx hp
  have hcx := ne_of_dead hx hc
  have hcp := (wf.parent_ne_self hc hpar).symm
  by_cases hqx : q = x
  · subst hqx
    rw [split_front hcx.symm hpx.symm] at hq
    cases hq
    by_cases hj : j = idx ((cc.label.drop k).take ps)
    · subst hj
      simp [frontCell] at hchild
      exact .inr (.inl ⟨rfl, rfl, hchild.symm⟩)
    · simp [frontCell, update_of_ne hj] at hchild
  -- only `p` had the cut cell as a child
  have hnotc : ∀ qc', h q = some qc' → q ≠ p → qc'.child j = some n → n ≠ c := by
    rintro qc' hq' hqp hch rfl
    obtain ⟨c', hc', hpar', _⟩ := wf.child_cell hq' hch
    rw [hc] at hc'
    cases hc'
    rw [hpar] at hpar'
    cases hpar'
    exact hqp rfl
  by_cases hqp : q = p
  · subst hqp
    rw [split_parent] at hq
    cases hq
    by_cases hj : j = idx (cc.label.take ps)
    · subst hj
      simp [Cell.setChild] at hchild
      exact .inl ⟨rfl, rfl, hchild.symm⟩
    · simp [Cell.setChild, update_of_ne hj] at hchild
      refine .inr (.inr ⟨?_, pc, hp, hchild⟩)
      rintro rfl
      obtain ⟨c', hc', _, hlab⟩ := wf.child_cell hp hchild
      rw [hc] at hc'
      cases hc'
      exact hj hlab.symm
  by_cases hqc : q = c
  · subst hqc
    rw [split_back hcp] at hq
    cases hq
    exact .inr (.inr ⟨hnotc cc hc hqp hchild, cc, hc, hchild⟩)
  · rw [split_other hqx hqc hqp] at hq
    exact .inr (.inr ⟨hnotc qc hq hqp hchild, qc, hq, hchild⟩)

/-- Cutting a label at a page boundary strictly inside it keeps the trie well formed. -/
theorem WellFormed.split (hk : 0 < k)
    (hkdvd : ps ∣ k) (hklt : k < cc.label.length) :
    WellFormed idx ps root (split idx ps h p pc c cc x k)
      (update word x (word p ++ cc.label.take k)) := by
  obtain ⟨rc, hrc, hrpar, hrlab⟩ := wf.root_cell
  have hps : ps ≤ k := Nat.le_of_dvd hk hkdvd
  have hfront : PageTrie.split idx ps h p pc c cc x k x =
      some (frontCell idx ps p c cc.label k) :=
        split_front (ne_of_dead hx hc).symm (ne_of_dead hx hp).symm
  have hback : PageTrie.split idx ps h p pc c cc x k c = some (backCell x cc k) :=
    split_back (wf.parent_ne_self hc hpar).symm
  have hlabx : labelOf (PageTrie.split idx ps h p pc c cc x k) x = cc.label.take k :=
    labelOf_eq hfront
  refine
    { page_pos := wf.page_pos
      root_cell := ?_
      spells := ?_
      filed := wf.filed_split hp hc hpar hx hps
      label_ne := ?_
      label_dvd := ?_
      child_cell := ?_ }
  · obtain ⟨ci, hci, hpar', hlab⟩ := split_keeps (k := k) hp
      (ne_of_dead hx hrc) (wf.ne_root_of_parent hc hpar).symm hrc
    exact ⟨ci, hci, hpar'.trans hrpar, hlab.trans hrlab⟩
  · have hspells := wf.spells.split (k := k)
      (labelOf (PageTrie.split idx ps h p pc c cc x k)) wf hp hc hpar hx (by
        intro i hix hic
        by_cases hip : i = p
        · subst hip
          rw [labelOf_eq split_parent, labelOf_eq hp]
          rfl
        · simp [labelOf, split_other hix hic hip])
        (by rw [hlabx, labelOf_eq hback, labelOf_eq hc]; exact (take_append_drop _ _).symm)
    rwa [hlabx] at hspells
  · -- both halves of the label are nonempty, and whole pages
    intro n ci hn hroot
    by_cases hnx : n = x
    · subst hnx
      rw [hfront] at hn
      cases hn
      exact ne_nil_of_length_pos (by simp [frontCell]; omega)
    by_cases hnc : n = c
    · subst hnc
      rw [hback] at hn
      cases hn
      exact ne_nil_of_length_pos (by simp [backCell]; omega)
    · obtain ⟨c', hc', _, hlab⟩ := split_old hp hnx hnc hn
      rw [← hlab]
      exact wf.label_ne hc' hroot
  · intro n ci hn
    by_cases hnx : n = x
    · subst hnx
      rw [hfront] at hn
      cases hn
      simpa [frontCell, min_eq_left hklt.le] using hkdvd
    by_cases hnc : n = c
    · subst hnc
      rw [hback] at hn
      cases hn
      simpa [backCell] using Nat.dvd_sub (wf.label_dvd hc) hkdvd
    · obtain ⟨c', hc', _, hlab⟩ := split_old hp hnx hnc hn
      rw [← hlab]
      exact wf.label_dvd hc'
  · intro q qc j n hq hchild
    rcases wf.entry_split hp hc hpar hx hq hchild with
      ⟨rfl, rfl, rfl⟩ | ⟨rfl, rfl, rfl⟩ | ⟨hnc, qc', hq', hchild'⟩
    · exact ⟨_, hfront, rfl, by simp [frontCell, take_take, min_eq_left hps]⟩
    · exact ⟨_, hback, rfl, rfl⟩
    · obtain ⟨c', hc', hcpar, hclab⟩ := wf.child_cell hq' hchild'
      obtain ⟨ci, hci, hpar', hlab⟩ := split_keeps (k := k) hp
        (ne_of_dead hx hc') hnc hc'
      exact ⟨ci, hci, hpar'.trans hcpar, by rw [hlab]; exact hclab⟩

end

/-- The path of a cell after a cut of `c` at the fresh `x`. -/
def insertAbove (c x : Nat) (path : List Nat) : List Nat :=
  path.flatMap fun m => if m = c then [c, x] else [m]

theorem mem_insertAbove {m : Nat} {path : List Nat} :
    m ∈ insertAbove c x path ↔ m ∈ path ∨ (m = x ∧ c ∈ path) := by
  simp only [insertAbove, mem_flatMap]
  constructor
  · rintro ⟨a, ha, hm⟩
    by_cases hac : a = c
    · subst hac
      rcases mem_pair.mp (by simpa using hm) with rfl | rfl
      · exact .inl ha
      · exact .inr ⟨rfl, ha⟩
    · simp [hac] at hm
      exact .inl (hm ▸ ha)
  · rintro (hm | ⟨rfl, hc⟩)
    · exact ⟨m, hm, by split <;> simp_all⟩
    · exact ⟨c, hc, by simp⟩

/-- Paths through the cut cell gain its upper half; other paths are unchanged. -/
theorem PathUp.split (wf : WellFormed idx ps root h word) (hp : h p = some pc)
    (hc : h c = some cc) (hpar : cc.parent = some p) (hx : h x = none) {n : Nat}
    {path : List Nat} (hpath : PathUp h root n path) :
    PathUp (split idx ps h p pc c cc x k) root n (insertAbove c x path) := by
  obtain ⟨rc, hrc, _⟩ := wf.root_cell
  have hxroot := (ne_of_dead hx hrc).symm
  have hpx := ne_of_dead hx hp
  have hcx := ne_of_dead hx hc
  have hcp := (wf.parent_ne_self hc hpar).symm
  induction hpath with
  | root => exact .root
  | @cons n q ci l hn hroot hq rest ih =>
    by_cases hnc : n = c
    · subst hnc
      rw [hc] at hn
      cases hn
      rw [hpar] at hq
      cases hq
      have hx' : PathUp (PageTrie.split idx ps h p pc n cc x k) root x
          (x :: insertAbove n x l) :=
        .cons (split_front hcx.symm hpx.symm) hxroot rfl ih
      have : insertAbove n x (n :: l) = n :: x :: insertAbove n x l := by simp [insertAbove]
      rw [this]
      exact .cons (split_back hcp) hroot rfl hx'
    · have : insertAbove c x (n :: l) = n :: insertAbove c x l := by simp [insertAbove, hnc]
      rw [this]
      obtain ⟨ci', hci', hpar', _⟩ := split_keeps (k := k) hp
        (ne_of_dead hx hn) hnc hn
      exact .cons hci' hroot (hpar'.trans hq) ih

end Split

/-! ## Section 4: Removed leaves -/

section RemoveLeaf

variable {p n : Nat} {pc nc : Cell α κ}

theorem removeLeaf_gone : removeLeaf idx ps h p pc n nc.label n = none := by
  simp [removeLeaf]

theorem removeLeaf_parent (hpn : p ≠ n) :
    removeLeaf idx ps h p pc n nc.label p =
      some (pc.setChild (idx (nc.label.take ps)) none) := by
  simp [removeLeaf, hpn]

theorem removeLeaf_other {i : Nat} (hn : i ≠ n) (hp : i ≠ p) :
    removeLeaf idx ps h p pc n nc.label i = h i := by
  simp [removeLeaf, hn, hp]

theorem removeLeaf_old (hp : h p = some pc) {i : Nat} {ci : Cell α κ}
    (hi : removeLeaf idx ps h p pc n nc.label i = some ci) :
    i ≠ n ∧ ∃ c, h i = some c ∧ c.parent = ci.parent ∧ c.label = ci.label := by
  have hin : i ≠ n := by
    rintro rfl
    rw [removeLeaf_gone] at hi
    cases hi
  refine ⟨hin, ?_⟩
  by_cases hip : i = p
  · subst hip
    rw [removeLeaf_parent hin] at hi
    cases hi
    exact ⟨pc, hp, rfl, rfl⟩
  · rw [removeLeaf_other hin hip] at hi
    exact ⟨ci, hi, rfl, rfl⟩

theorem removeLeaf_keeps (hp : h p = some pc) {i : Nat} {c : Cell α κ} (hin : i ≠ n)
    (hi : h i = some c) :
    ∃ ci, removeLeaf idx ps h p pc n nc.label i = some ci ∧ ci.parent = c.parent ∧
      ci.label = c.label := by
  by_cases hip : i = p
  · subst hip
    rw [hp] at hi
    cases hi
    exact ⟨_, removeLeaf_parent hin, rfl, rfl⟩
  · exact ⟨c, by rw [removeLeaf_other hin hip, hi], rfl, rfl⟩

omit [DecidableEq κ] in
theorem WellFormed.parent_ne_of_childless (wf : WellFormed idx ps root h word)
    (hn : h n = some nc) (hleaf : ∀ k, nc.child k = none) {m q : Nat} {c : Cell α κ}
    (hm : h m = some c) (hq : c.parent = some q) : q ≠ n := by
  rintro rfl
  have := wf.filed_at hm hq hn
  simp [hleaf] at this

omit [DecidableEq κ] in
theorem WellFormed.not_mem_path_of_childless (wf : WellFormed idx ps root h word)
    (hn : h n = some nc) (hleaf : ∀ k, nc.child k = none) {m : Nat} {path : List Nat}
    (hpath : PathUp h root m path) (hmn : m ≠ n) : n ∉ path := by
  intro hmem
  obtain ⟨k, ck, _, hck, hpar⟩ := path_next hpath n (.inl hmem) hmn.symm
  exact wf.parent_ne_of_childless hn hleaf hck hpar rfl

theorem Spells.removeLeaf {lab lab' w : Nat → List β} (sp : Spells root h lab w)
    (hp : h p = some pc) (hlab : ∀ i, i ≠ n → lab' i = lab i) :
    Spells root (removeLeaf idx ps h p pc n nc.label) lab' w where
  at_root := sp.at_root
  at_child := by
    intro i ci q hi hq
    obtain ⟨hin, c, hc, hpar, _⟩ := removeLeaf_old hp hi
    rw [sp.at_child hc (hpar.trans hq), hlab i hin]

theorem WellFormed.removeLeaf (wf : WellFormed idx ps root h word) (hp : h p = some pc)
    (hn : h n = some nc) (hpar : nc.parent = some p) (hleaf : ∀ k, nc.child k = none) :
    WellFormed idx ps root (removeLeaf idx ps h p pc n nc.label) word := by
  obtain ⟨rc, hrc, hrpar, hrlab⟩ := wf.root_cell
  have hpn := wf.parent_ne_self hn hpar
  have hnroot := wf.ne_root_of_parent hn hpar
  refine
    { page_pos := wf.page_pos
      root_cell := ?_
      spells := ?_
      filed := ?_
      label_ne := ?_
      label_dvd := ?_
      child_cell := ?_ }
  · obtain ⟨c, hc, hpar', hlab⟩ := removeLeaf_keeps hp
      hnroot.symm hrc
    exact ⟨c, hc, hpar'.trans hrpar, hlab.trans hrlab⟩
  · refine wf.spells.removeLeaf hp fun i hi => ?_
    by_cases hip : i = p
    · subst hip
      rw [labelOf_eq (removeLeaf_parent hi), labelOf_eq hp]
      rfl
    · simp [labelOf, removeLeaf_other hi hip]
  · intro m c hm hroot
    obtain ⟨hmn, c', hc', hpar', hlab⟩ := removeLeaf_old hp hm
    obtain ⟨q, qc, hq, hqc, hfile⟩ := wf.filed hc' hroot
    have hqn := wf.parent_ne_of_childless hn hleaf hc' hq
    rw [← hpar', ← hlab]
    by_cases hqp : q = p
    · subst hqp
      rw [hp] at hqc
      cases hqc
      refine ⟨q, _, hq, removeLeaf_parent hqn, ?_⟩
      have hne : idx (c'.label.take ps) ≠ idx (nc.label.take ps) := by
        intro heq
        rw [heq, wf.filed_at hn hpar hp] at hfile
        cases hfile
        exact hmn rfl
      simp [Cell.setChild, update_of_ne hne, hfile]
    · exact ⟨q, qc, hq, by rw [removeLeaf_other hqn hqp, hqc], hfile⟩
  · intro m c hm hroot
    obtain ⟨_, c', hc', _, hlab⟩ := removeLeaf_old hp hm
    rw [← hlab]
    exact wf.label_ne hc' hroot
  · intro m c hm
    obtain ⟨_, c', hc', _, hlab⟩ := removeLeaf_old hp hm
    rw [← hlab]
    exact wf.label_dvd hc'
  · intro q qc j m hq hchild
    obtain ⟨hqn, _⟩ := removeLeaf_old hp hq
    have hold : m ≠ n ∧ ∃ qc', h q = some qc' ∧ qc'.child j = some m := by
      by_cases hqp : q = p
      · subst hqp
        rw [removeLeaf_parent hqn] at hq
        cases hq
        by_cases hj : j = idx (nc.label.take ps)
        · subst hj
          simp [Cell.setChild] at hchild
        · simp [Cell.setChild, update_of_ne hj] at hchild
          refine ⟨?_, pc, hp, hchild⟩
          rintro rfl
          obtain ⟨c', hc', _, hlab⟩ := wf.child_cell hp hchild
          rw [hn] at hc'
          cases hc'
          exact hj hlab.symm
      · rw [removeLeaf_other hqn hqp] at hq
        refine ⟨?_, qc, hq, hchild⟩
        rintro rfl
        obtain ⟨c', hc', hpar', _⟩ := wf.child_cell hq hchild
        rw [hn] at hc'
        cases hc'
        rw [hpar] at hpar'
        cases hpar'
        exact hqp rfl
    obtain ⟨hmn, qc', hq', hchild'⟩ := hold
    obtain ⟨c', hc', hcpar, hclab⟩ := wf.child_cell hq' hchild'
    obtain ⟨ci, hci, hpar', hlab⟩ := removeLeaf_keeps hp
      hmn hc'
    exact ⟨ci, hci, hpar'.trans hcpar, by rw [hlab]; exact hclab⟩

theorem PathUp.removeLeaf (wf : WellFormed idx ps root h word) (hp : h p = some pc)
    (hn : h n = some nc) (hleaf : ∀ k, nc.child k = none) {m : Nat} {path : List Nat}
    (hpath : PathUp h root m path) (hmn : m ≠ n) :
    PathUp (removeLeaf idx ps h p pc n nc.label) root m path := by
  have hnot := wf.not_mem_path_of_childless hn hleaf hpath hmn
  refine hpath.congr fun i hi c hc => ?_
  have hin : i ≠ n := by
    rintro rfl
    exact hnot hi
  obtain ⟨ci, hci, hpar, _⟩ := removeLeaf_keeps hp hin hc
  exact ⟨ci, hci, hpar⟩

end RemoveLeaf

end Sglang.Lib.PageTrie
