import Sglang.Lib.CommonPrefix

/-!
# Page Tries on a Heap

A radix tree whose edges are labelled with whole pages of letters, stored as heap cells with
parent pointers and child maps indexed by (an index of) the first page of the child's label.

- `WellFormed`: the heap is a tree under `root`, every other label is a non-empty whole number
  of pages, and each cell is filed in its parent under its own first page.
- `Spells`: a labelling of the cells extended to whole paths. The letters of a path are one
  instance; anything stored alongside the letters is another.
- `child_on_path`: the trie is deterministic, so a word that extends the word of a cell passes
  through a child of that cell.

Paths are first-class (`PathUp`): loops that climb from a cell to the root visit exactly the
cells of its path, once each.
-/

namespace Sglang.Lib.PageTrie

open List

variable {α β κ : Type*}

/-! ## Section 1: Cells and well-formedness -/

/-- A heap cell: parent pointer, edge label and child map. -/
structure Cell (α κ : Type*) where
  parent : Option Nat
  label : List α
  child : κ → Option Nat

/-- Cells by identity; `none` for identities not in the tree. -/
abbrev Heap (α κ : Type*) := Nat → Option (Cell α κ)

/-- `w` extends the labelling `lab` of the cells to the paths that lead to them. -/
structure Spells (root : Nat) (h : Heap α κ) (lab w : Nat → List β) : Prop where
  at_root : w root = []
  at_child : ∀ {n c p}, h n = some c → c.parent = some p → w n = w p ++ lab n

def labelOf (h : Heap α κ) (n : Nat) : List α := ((h n).map Cell.label).getD []

/-- The heap is a page trie under `root` and `word` is the word each cell stands for. Children
are filed under the index `idx` of the first page of their label. -/
structure WellFormed (idx : List α → κ) (ps root : Nat) (h : Heap α κ) (word : Nat → List α) :
    Prop where
  page_pos : 0 < ps
  root_cell : ∃ c, h root = some c ∧ c.parent = none ∧ c.label = []
  spells : Spells root h (labelOf h) word
  filed : ∀ {n c}, h n = some c → n ≠ root →
    ∃ p pc, c.parent = some p ∧ h p = some pc ∧ pc.child (idx (c.label.take ps)) = some n
  label_ne : ∀ {n c}, h n = some c → n ≠ root → c.label ≠ []
  label_dvd : ∀ {n c}, h n = some c → ps ∣ c.label.length
  child_cell : ∀ {p pc k n}, h p = some pc → pc.child k = some n →
    ∃ c, h n = some c ∧ c.parent = some p ∧ idx (c.label.take ps) = k

theorem labelOf_eq {h : Heap α κ} {n : Nat} {c : Cell α κ} (hc : h n = some c) :
    labelOf h n = c.label := by
  simp [labelOf, hc]

namespace WellFormed

variable {idx : List α → κ} {ps root : Nat} {h : Heap α κ} {word : Nat → List α}

section

variable (wf : WellFormed idx ps root h word)
include wf

theorem word_root : word root = [] := wf.spells.at_root

theorem word_child {n p : Nat} {c : Cell α κ}
    (hn : h n = some c) (hp : c.parent = some p) : word n = word p ++ c.label := by
  rw [wf.spells.at_child hn hp, labelOf_eq hn]

theorem ne_root_of_parent {n p : Nat} {c : Cell α κ}
    (hn : h n = some c) (hp : c.parent = some p) : n ≠ root := by
  rintro rfl
  obtain ⟨c', hc', hnone, _⟩ := wf.root_cell
  rw [hn] at hc'
  cases hc'
  simp [hp] at hnone

theorem parent_cell {n : Nat} {c : Cell α κ}
    (hn : h n = some c) (hroot : n ≠ root) : ∃ p pc, c.parent = some p ∧ h p = some pc := by
  obtain ⟨p, pc, hp, hpc, _⟩ := wf.filed hn hroot
  exact ⟨p, pc, hp, hpc⟩

theorem page_le_label {n : Nat} {c : Cell α κ}
    (hn : h n = some c) (hroot : n ≠ root) : ps ≤ c.label.length :=
  Nat.le_of_dvd (length_pos_of_ne_nil (wf.label_ne hn hroot)) (wf.label_dvd hn)

theorem label_length_pos {n : Nat} {c : Cell α κ}
    (hn : h n = some c) (hroot : n ≠ root) : 0 < c.label.length :=
  length_pos_of_ne_nil (wf.label_ne hn hroot)

theorem word_length_lt {n p : Nat} {c : Cell α κ}
    (hn : h n = some c) (hp : c.parent = some p) : (word p).length < (word n).length := by
  have hpos := wf.label_length_pos hn (wf.ne_root_of_parent hn hp)
  rw [wf.word_child hn hp, length_append]
  omega

theorem parent_ne_self {n p : Nat} {c : Cell α κ}
    (hn : h n = some c) (hp : c.parent = some p) : p ≠ n := by
  rintro rfl
  exact (wf.word_length_lt hn hp).false

theorem induction_on {P : Nat → Prop}
    (base : P root)
    (step : ∀ n c p, h n = some c → c.parent = some p → (∃ pc, h p = some pc) → P p → P n) :
    ∀ n c, h n = some c → P n := by
  intro n
  induction hlen : (word n).length using Nat.strong_induction_on generalizing n with
  | _ len ih =>
    intro c hc
    by_cases hroot : n = root
    · rw [hroot]; exact base
    · obtain ⟨p, pc, hp, hpc⟩ := wf.parent_cell hc hroot
      have hlt := wf.word_length_lt hc hp
      exact step n c p hc hp ⟨pc, hpc⟩ (ih _ (by omega) p rfl pc hpc)

theorem word_dvd {n : Nat} {c : Cell α κ} (hn : h n = some c) :
    ps ∣ (word n).length := by
  refine wf.induction_on (P := fun n => ps ∣ (word n).length) ?_ ?_ n c hn
  · simp [wf.word_root]
  · intro n c p hc hp _ ih
    rw [wf.word_child hc hp, length_append]
    exact Nat.dvd_add ih (wf.label_dvd hc)

end

end WellFormed

/-! ## Section 2: Paths to the root -/

/-- `PathUp h root n l`: climbing from `n` visits the cells `l`, the root excluded. -/
inductive PathUp (h : Heap α κ) (root : Nat) : Nat → List Nat → Prop where
  | root : PathUp h root root []
  | cons {n p : Nat} {c : Cell α κ} {l : List Nat} (hn : h n = some c) (hroot : n ≠ root)
      (hp : c.parent = some p) (rest : PathUp h root p l) : PathUp h root n (n :: l)

/-- Executable climb along parent pointers. -/
def climb (root : Nat) (parent : Nat → Option Nat) : Nat → Nat → List Nat
  | 0, _ => []
  | fuel + 1, n =>
    if n = root then []
    else match parent n with
      | none => [n]
      | some p => n :: climb root parent fuel p

def parentOf (h : Heap α κ) (n : Nat) : Option Nat := (h n).bind Cell.parent

theorem PathUp.climb_eq {h : Heap α κ} {root n : Nat} {l : List Nat} (path : PathUp h root n l) :
    ∀ {fuel}, l.length < fuel → climb root (parentOf h) fuel n = l := by
  induction path with
  | root =>
    intro fuel hf
    cases fuel with
    | zero => simp at hf
    | succ f => simp [climb]
  | cons hn hroot hp _ ih =>
    intro fuel hf
    cases fuel with
    | zero => simp at hf
    | succ f =>
      simp only [length_cons] at hf
      simp [climb, hroot, parentOf, hn, hp]
      exact ih (by omega)

theorem PathUp.congr {γ κ' : Type*} {h : Heap α κ} {h' : Heap γ κ'} {root n : Nat} {l : List Nat}
    (path : PathUp h root n l)
    (hsame : ∀ m ∈ l, ∀ c, h m = some c → ∃ c', h' m = some c' ∧ c'.parent = c.parent) :
    PathUp h' root n l := by
  induction path with
  | root => exact .root
  | cons hn hroot hp _ ih =>
    obtain ⟨c', hc', hpar⟩ := hsame _ (mem_cons_self ..) _ hn
    exact .cons hc' hroot (hpar.trans hp) (ih fun m hm => hsame m (mem_cons_of_mem _ hm))

namespace WellFormed

variable {idx : List α → κ} {ps root : Nat} {h : Heap α κ} {word : Nat → List α}

section

variable (wf : WellFormed idx ps root h word)
include wf

theorem exists_path {n : Nat} {c : Cell α κ} (hn : h n = some c) :
    ∃ l, PathUp h root n l := by
  refine wf.induction_on (P := fun n => ∃ l, PathUp h root n l) ⟨[], .root⟩ ?_ n c hn
  rintro n c p hc hp _ ⟨l, path⟩
  exact ⟨n :: l, .cons hc (wf.ne_root_of_parent hc hp) hp path⟩

theorem path_mem {n : Nat} {l : List Nat}
    (path : PathUp h root n l) :
    ∀ m ∈ l, (∃ c, h m = some c) ∧ m ≠ root ∧ word m <+: word n := by
  induction path with
  | root => simp
  | cons hn hroot hp _ ih =>
    intro m hm
    rcases mem_cons.mp hm with rfl | hm
    · exact ⟨⟨_, hn⟩, hroot, prefix_rfl⟩
    · obtain ⟨hlive, hne, hpre⟩ := ih m hm
      refine ⟨hlive, hne, hpre.trans ?_⟩
      rw [wf.word_child hn hp]
      exact prefix_append _ _

theorem path_nodup {n : Nat} {l : List Nat}
    (path : PathUp h root n l) : l.Nodup := by
  induction path with
  | root => exact nodup_nil
  | cons hn hroot hp rest ih =>
    refine nodup_cons.mpr ⟨fun hmem => ?_, ih⟩
    have hpre := (wf.path_mem rest _ hmem).2.2
    have hlt := wf.word_length_lt hn hp
    exact absurd hpre.length_le (by omega)

theorem path_length_le {n bound : Nat} {l : List Nat}
    (path : PathUp h root n l) (hbound : ∀ m c, h m = some c → m < bound) :
    l.length ≤ bound := by
  have hsub : l ⊆ List.range bound := by
    intro m hm
    obtain ⟨⟨c, hc⟩, _⟩ := wf.path_mem path m hm
    exact mem_range.mpr (hbound m c hc)
  have := (subperm_of_subset (wf.path_nodup path) hsub).length_le
  simpa using this

end

theorem climb_root (fuel : Nat) : climb root (parentOf h) fuel root = [] := by
  cases fuel <;> simp [climb]

theorem climb_child (wf : WellFormed idx ps root h word) {bound n p : Nat} {c : Cell α κ}
    (hbound : ∀ m c, h m = some c → m < bound) (hn : h n = some c) (hp : c.parent = some p) :
    climb root (parentOf h) (bound + 1) n = n :: climb root (parentOf h) (bound + 1) p := by
  obtain ⟨l, path⟩ := wf.exists_path hn
  have hlen := wf.path_length_le path hbound
  rw [path.climb_eq (by omega)]
  cases path with
  | root => exact absurd rfl (wf.ne_root_of_parent hn hp)
  | cons hn' hroot hp' rest =>
    rw [hn] at hn'
    cases hn'
    rw [hp] at hp'
    cases hp'
    simp only [length_cons] at hlen
    rw [rest.climb_eq (by omega)]

theorem path_next {n : Nat} {l : List Nat} (path : PathUp h root n l) :
    ∀ m, (m ∈ l ∨ m = root) → m ≠ n → ∃ k c, k ∈ l ∧ h k = some c ∧ c.parent = some m := by
  induction path with
  | root =>
    rintro m (hm | rfl) hne
    · simp at hm
    · exact absurd rfl hne
  | @cons n p c l hn hroot hp rest ih =>
    intro m hm hne
    by_cases hmp : m = p
    · exact ⟨n, c, mem_cons_self .., hn, by rw [hmp]; exact hp⟩
    · have hm' : m ∈ l ∨ m = root := by
        rcases hm with hm | hm
        · rcases mem_cons.mp hm with rfl | hm
          · exact absurd rfl hne
          · exact .inl hm
        · exact .inr hm
      obtain ⟨k, ck, hk, hck, hpar⟩ := ih m hm' hmp
      exact ⟨k, ck, mem_cons_of_mem _ hk, hck, hpar⟩

/-! ## Section 3: Determinism -/

/-- A cell whose word is a prefix of another cell's word lies on that cell's path. -/
theorem mem_path_of_isPrefix (wf : WellFormed idx ps root h word) {n' : Nat}
    {l : List Nat} (path : PathUp h root n' l) {n : Nat} {c : Cell α κ} (hn : h n = some c) :
    word n <+: word n' → n ∈ l ∨ n = root := by
  refine wf.induction_on (P := fun n => word n <+: word n' → n ∈ l ∨ n = root)
    (fun _ => .inr rfl) ?_ n c hn
  intro n c p hc hp ⟨pc, hpc⟩ ih hpre
  have hroot := wf.ne_root_of_parent hc hp
  have hword := wf.word_child hc hp
  have hlt := wf.word_length_lt hc hp
  have hpre_p : word p <+: word n' := by
    refine List.IsPrefix.trans ?_ hpre
    rw [hword]
    exact prefix_append _ _
  -- `p` lies strictly above `n'`, so the path continues below `p` through some cell `k`
  have hpn' : p ≠ n' := by
    rintro rfl
    exact absurd hpre.length_le (by omega)
  obtain ⟨k, ck, hkl, hck, hkpar⟩ := path_next path p (ih hpre_p) hpn'
  have hkpre := (wf.path_mem path k hkl).2.2
  have hkroot := (wf.path_mem path k hkl).2.1
  -- both labels start with the page that follows `word p` in `word n'`
  obtain ⟨t, ht⟩ := hpre
  obtain ⟨t', ht'⟩ := hkpre
  rw [hword, append_assoc] at ht
  rw [wf.word_child hck hkpar, append_assoc] at ht'
  have htail : c.label ++ t = ck.label ++ t' := append_cancel_left (ht.trans ht'.symm)
  have hpage : c.label.take ps = ck.label.take ps := by
    have := congrArg (List.take ps) htail
    rwa [take_append_of_le_length (wf.page_le_label hc hroot),
      take_append_of_le_length (wf.page_le_label hck hkroot)] at this
  obtain ⟨p₁, pc₁, hp₁, hpc₁, hfile₁⟩ := wf.filed hc hroot
  obtain ⟨p₂, pc₂, hp₂, hpc₂, hfile₂⟩ := wf.filed hck hkroot
  rw [hp] at hp₁
  cases hp₁
  rw [hkpar] at hp₂
  cases hp₂
  rw [hpc₁] at hpc₂
  cases hpc₂
  rw [hpage, hfile₂] at hfile₁
  cases hfile₁
  exact .inl hkl

/-- Determinism: a word that properly extends the word of `n` passes through a child of `n`. -/
theorem child_on_path (wf : WellFormed idx ps root h word) {n n' : Nat}
    {c c' : Cell α κ} (hn : h n = some c) (hn' : h n' = some c') (hpre : word n <+: word n')
    (hne : n ≠ n') : ∃ k ck, h k = some ck ∧ ck.parent = some n ∧ word k <+: word n' := by
  obtain ⟨l, path⟩ := wf.exists_path hn'
  obtain ⟨k, ck, hkl, hck, hpar⟩ := path_next path n (wf.mem_path_of_isPrefix path hn hpre) hne
  exact ⟨k, ck, hck, hpar, (wf.path_mem path k hkl).2.2⟩

theorem word_injective (wf : WellFormed idx ps root h word) {n n' : Nat}
    {c c' : Cell α κ} (hn : h n = some c) (hn' : h n' = some c') (heq : word n = word n') :
    n = n' := by
  by_contra hne
  obtain ⟨k, ck, hck, hpar, hpre⟩ := wf.child_on_path hn hn' (by rw [heq]) hne
  have hlt := wf.word_length_lt hck hpar
  exact absurd hpre.length_le (by rw [← heq]; omega)

theorem spells_prefix {lab w : Nat → List β} (sp : Spells root h lab w) {n : Nat} {l : List Nat}
    (path : PathUp h root n l) : ∀ m ∈ l, w m <+: w n := by
  induction path with
  | root => simp
  | cons hn hroot hp _ ih =>
    intro m hm
    rcases mem_cons.mp hm with rfl | hm
    · exact prefix_rfl
    · refine (ih m hm).trans ?_
      rw [sp.at_child hn hp]
      exact prefix_append _ _

section

variable (wf : WellFormed idx ps root h word)
include wf

theorem exists_host {n : Nat} {l : List Nat}
    (path : PathUp h root n l) {w : List α} (hw : w <+: word n) (hne : w ≠ []) :
    ∃ t ∈ l, ∃ c q, h t = some c ∧ c.parent = some q ∧ w <+: word t ∧
      (word q).length < w.length := by
  induction path with
  | root =>
    rw [wf.word_root, prefix_nil] at hw
    exact absurd hw hne
  | @cons n p c l hn hroot hp rest ih =>
    by_cases hlt : (word p).length < w.length
    · exact ⟨n, mem_cons_self .., c, p, hn, hp, hw, hlt⟩
    · have hpre : w <+: word p := by
        refine prefix_of_prefix_length_le hw ?_ (not_lt.mp hlt)
        rw [wf.word_child hn hp]
        exact prefix_append _ _
      obtain ⟨t, ht, rest⟩ := ih hpre
      exact ⟨t, mem_cons_of_mem _ ht, rest⟩

theorem child_unique {q t t' : Nat} {c c' : Cell α κ}
    (ht : h t = some c) (hq : c.parent = some q) (ht' : h t' = some c') (hq' : c'.parent = some q)
    {w : List α} (hw : w <+: word t) (hw' : w <+: word t')
    (hlen : (word q).length + ps ≤ w.length) : t = t' := by
  have hpage : ∀ {m : Nat} {d : Cell α κ}, h m = some d → d.parent = some q → w <+: word m →
      d.label.take ps = (w.drop (word q).length).take ps := by
    intro m d hm hd hpre
    obtain ⟨r, hr⟩ := hpre
    have hword := wf.word_child hm hd
    have hlab := wf.page_le_label hm (wf.ne_root_of_parent hm hd)
    have hdrop : (w.drop (word q).length) ++ r = d.label := by
      have := congrArg (List.drop (word q).length) (hr.trans hword)
      rwa [drop_append_of_le_length (by omega), drop_left] at this
    rw [← hdrop, take_append_of_le_length (by simp; omega)]
  obtain ⟨p₁, pc₁, hp₁, hpc₁, hfile₁⟩ := wf.filed ht (wf.ne_root_of_parent ht hq)
  obtain ⟨p₂, pc₂, hp₂, hpc₂, hfile₂⟩ := wf.filed ht' (wf.ne_root_of_parent ht' hq')
  rw [hq] at hp₁
  cases hp₁
  rw [hq'] at hp₂
  cases hp₂
  rw [hpc₁] at hpc₂
  cases hpc₂
  rw [hpage ht hq hw] at hfile₁
  rw [hpage ht' hq' hw', hfile₁] at hfile₂
  cases hfile₂
  rfl

theorem add_page_le {q : Nat} {c : Cell α κ}
    (hq : h q = some c) {len : Nat} (hdvd : ps ∣ len) (hlt : (word q).length < len) :
    (word q).length + ps ≤ len := by
  have hd := wf.word_dvd hq
  have := Nat.le_of_dvd (by omega) (Nat.dvd_sub hdvd hd)
  omega

/-- The cell that hosts the last page of a page-aligned word lies on the path of every cell
whose word extends it. -/
theorem host_mem_path {n : Nat} {l : List Nat}
    (path : PathUp h root n l) {w : List α} (hw : w <+: word n) (hdvd : ps ∣ w.length)
    {t q : Nat} {c : Cell α κ} (ht : h t = some c) (hq : c.parent = some q) (hwt : w <+: word t)
    (hlt : (word q).length < w.length) : t ∈ l := by
  obtain ⟨qc, hqc⟩ : ∃ qc, h q = some qc := by
    obtain ⟨p, pc, hp, hpc⟩ := wf.parent_cell ht (wf.ne_root_of_parent ht hq)
    rw [hq] at hp
    cases hp
    exact ⟨pc, hpc⟩
  have hqt : word q <+: word t := by
    rw [wf.word_child ht hq]
    exact prefix_append _ _
  have hqw : word q <+: w := prefix_of_prefix_length_le hqt hwt hlt.le
  -- the path of `n` continues below `q` because `w` does
  have hqn : q ≠ n := by
    rintro rfl
    exact absurd hw.length_le (by omega)
  obtain ⟨k, ck, hkl, hck, hkpar⟩ :=
    path_next path q (wf.mem_path_of_isPrefix path hqc (hqw.trans hw)) hqn
  have hkn := (wf.path_mem path k hkl).2.2
  have hgap := wf.add_page_le hqc hdvd hlt
  -- `k` and `t` are filed under the page of `w` that follows `word q`
  have hpage := wf.page_le_label hck (wf.ne_root_of_parent hck hkpar)
  have hklen : (word q).length + ps ≤ (word k).length := by
    rw [wf.word_child hck hkpar, length_append]
    omega
  have hshort : w.take ((word q).length + ps) <+: w := take_prefix _ _
  have hk : w.take ((word q).length + ps) <+: word k :=
    prefix_of_prefix_length_le (hshort.trans hw) hkn (by simp; omega)
  have hkt : k = t :=
    wf.child_unique hck hkpar ht hq hk (hshort.trans hwt) (by simp; omega)
  exact hkt ▸ hkl

theorem spells_agree {lab w : Nat → List β}
    (sp : Spells root h lab w)
    (hlen : ∀ n c, h n = some c → (w n).length = (word n).length)
    {n n' : Nat} {c c' : Cell α κ} (hn : h n = some c) (hn' : h n' = some c') {v : List α}
    (hv : v <+: word n) (hv' : v <+: word n') (hdvd : ps ∣ v.length) :
    (w n).take v.length = (w n').take v.length := by
  by_cases hne : v = []
  · simp [hne]
  obtain ⟨l, path⟩ := wf.exists_path hn
  obtain ⟨l', path'⟩ := wf.exists_path hn'
  obtain ⟨t, htl, ct, q, ht, hq, hvt, hlt⟩ := exists_host wf path hv hne
  have htl' := wf.host_mem_path path' hv' hdvd ht hq hvt hlt
  have hshare : ∀ {m : Nat} {lm : List Nat}, PathUp h root m lm → t ∈ lm →
      (w m).take v.length = (w t).take v.length := by
    intro m lm pm htm
    obtain ⟨r, hr⟩ := spells_prefix sp pm t htm
    have := hvt.length_le
    rw [← hr, take_append_of_le_length (by rw [hlen t ct ht]; omega)]
  rw [hshare path htl, hshare path' htl']

/-- A search for `w` that reached a cell spelling a prefix of `w` and found no child filed under
the next page has found the longest page-aligned prefix of `w` in the trie. -/
theorem maximal_of_no_child {w : List α} {n : Nat}
    {c : Cell α κ} (hn : h n = some c) (hw : word n <+: w)
    (hstop : w.length < (word n).length + ps ∨
      c.child (idx ((w.drop (word n).length).take ps)) = none)
    {n' : Nat} {c' : Cell α κ} (hn' : h n' = some c') {v : List α} (hv : v <+: w)
    (hv' : v <+: word n') (hdvd : ps ∣ v.length) : v.length ≤ (word n).length := by
  by_contra hlt
  have hlt := not_le.mp hlt
  have hgap := wf.add_page_le hn hdvd hlt
  have hnv : word n <+: v := prefix_of_prefix_length_le hw hv hlt.le
  have hne : n ≠ n' := by
    rintro rfl
    exact absurd hv'.length_le (by omega)
  obtain ⟨k, ck, hck, hkpar, hkn'⟩ := wf.child_on_path hn hn' (hnv.trans hv') hne
  obtain ⟨p, pc, hp, hpc, hfile⟩ := wf.filed hck (wf.ne_root_of_parent hck hkpar)
  rw [hkpar] at hp
  cases hp
  rw [hn] at hpc
  cases hpc
  rcases hstop with hshort | hnone
  · exact absurd hv.length_le (by omega)
  · -- the label of `k` starts with the page of `w` after `word n`
    have hpage := wf.page_le_label hck (wf.ne_root_of_parent hck hkpar)
    have htake : ck.label.take ps = (w.drop (word n).length).take ps := by
      have hk : word k = word n ++ ck.label := wf.word_child hck hkpar
      have hboth : (word k).take ((word n).length + ps) = w.take ((word n).length + ps) := by
        have h₁ := prefix_iff_eq_take.mp hv
        have h₂ := prefix_iff_eq_take.mp hv'
        have h₃ := prefix_iff_eq_take.mp hkn'
        have hklen : (word n).length + ps ≤ (word k).length := by
          rw [hk, length_append]
          omega
        calc (word k).take ((word n).length + ps)
            = (word n').take ((word n).length + ps) := by
              rw [h₃, take_take, min_eq_left hklen]
          _ = v.take ((word n).length + ps) := by
              rw [h₂, take_take, min_eq_left hgap]
          _ = w.take ((word n).length + ps) := by
              rw [h₁, take_take, min_eq_left hgap]
      have := congrArg (List.drop (word n).length) hboth
      rw [hk, drop_take, drop_take, drop_left, Nat.add_sub_cancel_left] at this
      exact this
    rw [htake, hnone] at hfile
    cases hfile

end

end WellFormed

/-! ## Section 4: Spelling by climbing

What a path spells can be computed by climbing it; every spelling agrees with this one on live
cells, so statements about words need no ghost state. -/

/-- Concatenate a labelling along the climb from `n`, root first. -/
def spell (root : Nat) (h : Heap α κ) (bound : Nat) (lab : Nat → List β) (n : Nat) : List β :=
  (climb root (parentOf h) (bound + 1) n).reverse.flatMap lab

namespace WellFormed

variable {idx : List α → κ} {ps root : Nat} {h : Heap α κ} {word : Nat → List α}

theorem spells_spell (wf : WellFormed idx ps root h word) (bound : Nat)
    (hbound : ∀ m c, h m = some c → m < bound) (lab : Nat → List β) :
    Spells root h lab (spell root h bound lab) where
  at_root := by simp [spell, climb_root]
  at_child := by
    intro n c p hn hp
    simp only [spell]
    rw [wf.climb_child hbound hn hp]
    simp

theorem spells_unique (wf : WellFormed idx ps root h word) {lab w w' : Nat → List β}
    (sp : Spells root h lab w) (sp' : Spells root h lab w') {n : Nat} {c : Cell α κ}
    (hn : h n = some c) : w n = w' n := by
  refine wf.induction_on (P := fun n => w n = w' n) ?_ ?_ n c hn
  · rw [sp.at_root, sp'.at_root]
  · intro n c p hc hp _ ih
    rw [sp.at_child hc hp, sp'.at_child hc hp, ih]

theorem of_spells (wf : WellFormed idx ps root h word) {w : Nat → List α}
    (sp : Spells root h (labelOf h) w) : WellFormed idx ps root h w where
  page_pos := wf.page_pos
  root_cell := wf.root_cell
  spells := sp
  filed := wf.filed
  label_ne := wf.label_ne
  label_dvd := wf.label_dvd
  child_cell := wf.child_cell

end WellFormed

end Sglang.Lib.PageTrie
