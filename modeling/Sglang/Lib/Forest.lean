import Mathlib.Tactic

/-!
# Forests Given by Child Lists

A function that lists the children of a node is a forest when no node is listed twice and a height
falls from every node to its children. Two subtrees of siblings are then apart, and items that sit
at the nodes split into those of the node itself and those of each child.

`ArrangedAt` says that a list of items is ordered depth first at a node: the subtree is one block,
the subtrees of the children come by weight, and the items of the node itself come last.
-/

namespace Sglang.Lib.Forest

open List
open Relation (ReflTransGen)

variable {ν α : Type*}

/-! ## Section 1: Subtrees -/

/-- `x` is `n` or lies below it. -/
def Under (children : ν → List ν) : ν → ν → Prop := ReflTransGen fun p c => c ∈ children p

structure IsForest (children : ν → List ν) (height : ν → Nat) : Prop where
  nodup : ∀ p, (children p).Nodup
  height_lt : ∀ {p c}, c ∈ children p → height c < height p
  parent_unique : ∀ {p p' c}, c ∈ children p → c ∈ children p' → p = p'

variable {children : ν → List ν} {height : ν → Nat}

theorem under_self (n : ν) : Under children n n := ReflTransGen.refl

theorem under_of_child {p c x : ν} (hc : c ∈ children p) (h : Under children c x) :
    Under children p x :=
  ReflTransGen.head hc h

theorem under_iff {n x : ν} : Under children n x ↔
    x = n ∨ ∃ c ∈ children n, Under children c x := by
  constructor
  · intro h
    rcases ReflTransGen.cases_head h with rfl | ⟨c, hc, hx⟩
    · exact .inl rfl
    · exact .inr ⟨c, hc, hx⟩
  · rintro (rfl | ⟨c, hc, hx⟩)
    · exact under_self x
    · exact under_of_child hc hx

namespace IsForest

theorem height_le (hf : IsForest children height) {n x : ν} (h : Under children n x) :
    height x ≤ height n := by
  induction h with
  | refl => exact Nat.le_refl _
  | tail _ hc ih => exact (hf.height_lt hc).le.trans ih

theorem not_under_child (hf : IsForest children height) {p c : ν} (hc : c ∈ children p) :
    ¬Under children c p := by
  intro h
  have := hf.height_le h
  have := hf.height_lt hc
  omega

theorem apart (hf : IsForest children height) {p c c' x : ν} (hc : c ∈ children p)
    (hc' : c' ∈ children p) (h : Under children c x) (h' : Under children c' x) : c = c' := by
  -- a sibling below another one would put their parent below it
  have hbelow : ∀ {d d' : ν}, d ∈ children p → d' ∈ children p → Under children d d' → d' = d := by
    intro d d' hd hd' hdd
    rcases ReflTransGen.cases_tail hdd with heq | ⟨b, hb, hd''⟩
    · exact heq
    · obtain rfl := hf.parent_unique hd' hd''
      exact absurd hb (hf.not_under_child hd)
  have hchain := ReflTransGen.total_of_right_unique (r := Function.swap fun p c => c ∈ children p)
    (fun _ _ _ hb hc => hf.parent_unique hb hc) (Relation.reflTransGen_swap.mpr h)
    (Relation.reflTransGen_swap.mpr h')
  rcases hchain with hcc | hcc
  · exact hbelow hc' hc (Relation.reflTransGen_swap.mp hcc)
  · exact (hbelow hc hc' (Relation.reflTransGen_swap.mp hcc)).symm

end IsForest

/-! ## Section 2: The items of a subtree -/

open Classical in
theorem flatMap_filter_perm (P : ν → α → Prop) (items : List α) {cs : List ν} (hnodup : cs.Nodup)
    (hapart : ∀ c ∈ cs, ∀ c' ∈ cs, ∀ r, P c r → P c' r → c = c') :
    (cs.flatMap fun c => items.filter fun r => P c r).Perm
    (items.filter fun r => ∃ c ∈ cs, P c r) := by
  induction cs with
  | nil => simp
  | cons c cs ih =>
    obtain ⟨hnot, hnodup⟩ := nodup_cons.mp hnodup
    have hrest := ih hnodup fun d hd d' hd' =>
      hapart d (mem_cons_of_mem _ hd) d' (mem_cons_of_mem _ hd')
    have hsplit := filter_append_perm (fun r => decide (P c r))
      (items.filter fun r => ∃ d ∈ c :: cs, P d r)
    rw [filter_filter, filter_filter] at hsplit
    rw [flatMap_cons]
    refine (hrest.append_left _).trans (List.Perm.trans ?_ hsplit)
    refine List.Perm.of_eq (congrArg₂ _ ?_ ?_)
    · apply filter_congr
      intro r _
      simp only [mem_cons, exists_eq_or_imp, Bool.decide_or, Bool.and_or_distrib_left,
        Bool.and_self]
      by_cases h : P c r <;> simp [h]
    · apply filter_congr
      intro r _
      by_cases h : P c r
      · have hnone : ¬∃ d ∈ cs, P d r := by
          rintro ⟨d, hd, hr⟩
          obtain rfl := hapart c mem_cons_self d (mem_cons_of_mem _ hd) r h hr
          exact hnot hd
        simp [h, hnone]
      · simp [h]

open Classical in
/-- The items of a subtree are those of the subtrees of the children and those of the node
itself. -/
theorem IsForest.subtree_perm [DecidableEq ν] (hf : IsForest children height) (node : α → ν)
    (items : List α) {n : ν} {cs : List ν} (hcs : cs.Perm (children n)) :
    ((cs.flatMap fun c => items.filter fun r => Under children c (node r)) ++
      items.filter fun r => node r = n).Perm (items.filter fun r => Under children n (node r)) := by
  have hchildren := flatMap_filter_perm (fun c r => Under children c (node r)) items
    (hcs.nodup_iff.mpr (hf.nodup n))
    fun c hc c' hc' r h h' => hf.apart (hcs.mem_iff.mp hc) (hcs.mem_iff.mp hc') h h'
  have hsplit := filter_append_perm (fun r => decide (∃ c ∈ cs, Under children c (node r)))
    (items.filter fun r => Under children n (node r))
  rw [filter_filter, filter_filter] at hsplit
  refine (hchildren.append_right _).trans (List.Perm.trans ?_ hsplit)
  have hbelow : ∀ r, (∃ c ∈ cs, Under children c (node r)) ↔
      ∃ c ∈ children n, Under children c (node r) :=
    fun r => exists_congr fun c => and_congr_left fun _ => hcs.mem_iff
  refine List.Perm.of_eq (congrArg₂ _ ?_ ?_)
  · apply filter_congr
    intro r _
    rw [← Bool.decide_and, decide_eq_decide, under_iff, hbelow]
    exact ⟨fun h => ⟨h, .inr h⟩, And.left⟩
  · apply filter_congr
    intro r _
    have hown : node r = n → ¬∃ c ∈ children n, Under children c (node r) := by
      rintro rfl ⟨c, hc, h⟩
      exact hf.not_under_child hc h
    rw [← decide_not, ← Bool.decide_and, decide_eq_decide, under_iff, hbelow]
    constructor
    · intro h
      exact ⟨hown h, .inl h⟩
    · rintro ⟨hnot, h | h⟩
      · exact h
      · exact absurd h hnot

open Classical in
theorem IsForest.count_subtree [DecidableEq ν] (hf : IsForest children height) (node : α → ν)
    (items : List α) (n : ν) :
    items.countP (fun r => Under children n (node r)) = items.countP (fun r => node r = n) +
      ((children n).map fun c => items.countP fun r => Under children c (node r)).sum := by
  have hlength := (hf.subtree_perm node items (List.Perm.refl (children n))).length_eq
  rw [length_append, length_flatMap, ← countP_eq_length_filter, ← countP_eq_length_filter,
    Nat.add_comm] at hlength
  rw [← hlength]
  congr 2
  apply map_congr_left
  intro c _
  exact countP_eq_length_filter.symm

/-! ## Section 3: Depth-first order -/

/-- Around node `n` the list is in depth-first order; `under n x` says that `x` is in the subtree of
`n`. -/
structure ArrangedAt (under : ν → ν → Prop) (weight : ν → Nat) (node : α → ν) (n : ν) (cs : List ν)
    (q : List α) : Prop where
  contiguous : ∃ before block after, q = before ++ block ++ after ∧
    (∀ r ∈ block, under n (node r)) ∧ ∀ r, r ∈ before ∨ r ∈ after → ¬under n (node r)
  by_weight : ∀ c ∈ cs, ∀ c' ∈ cs,
    q.Pairwise fun r r' => under c (node r) → under c' (node r') → weight c' ≤ weight c
  own_last : q.Pairwise fun r r' => node r = n → under n (node r') → node r' = n

namespace ArrangedAt

variable {under under' : ν → ν → Prop} {weight weight' : ν → Nat} {node : α → ν} {n : ν}
  {cs : List ν} {q : List α}

theorem congr {cs' : List ν} (h : ArrangedAt under weight node n cs q) (hcs : ∀ c ∈ cs', c ∈ cs)
    (hunder : ∀ r ∈ q, ∀ m, under m (node r) ↔ under' m (node r))
    (hweight : ∀ c ∈ cs', weight c = weight' c) : ArrangedAt under' weight' node n cs' q := by
  obtain ⟨before, block, after, rfl, hblock, hrest⟩ := h.contiguous
  refine ⟨⟨before, block, after, rfl, ?_, ?_⟩, ?_, ?_⟩
  · intro r hr
    exact (hunder r (by simp [hr]) n).mp (hblock r hr)
  · intro r hr hmem
    exact hrest r hr ((hunder r (by simp only [mem_append]; tauto) n).mpr hmem)
  · intro c hc c' hc'
    refine (h.by_weight c (hcs c hc) c' (hcs c' hc')).imp_of_mem ?_
    intro r r' hr hr' hle hu hu'
    rw [← hweight c hc, ← hweight c' hc']
    exact hle ((hunder r hr c).mpr hu) ((hunder r' hr' c').mpr hu')
  · refine h.own_last.imp_of_mem ?_
    intro r r' _ hr' hlast hown hu
    exact hlast hown ((hunder r' hr' n).mpr hu)

theorem pairwise_extend {R : α → α → Prop} {before after : List α} (h : q.Pairwise R)
    (houter : ∀ r, r ∈ before ∨ r ∈ after → ∀ r', R r r' ∧ R r' r) :
    (before ++ q ++ after).Pairwise R := by
  have hbefore : before.Pairwise R :=
    pairwise_of_forall_mem_list fun r hr r' _ => (houter r (.inl hr) r').1
  have hafter : after.Pairwise R :=
    pairwise_of_forall_mem_list fun r hr r' _ => (houter r (.inr hr) r').1
  refine pairwise_append.mpr ⟨pairwise_append.mpr ⟨hbefore, h, ?_⟩, hafter, ?_⟩
  · intro r hr r' _
    exact (houter r (.inl hr) r').1
  · intro r _ r' hr'
    exact (houter r' (.inr hr') r).2

theorem extend (h : ArrangedAt under weight node n cs q) {before after : List α}
    (hself : ∀ m, under m m) (hdown : ∀ c ∈ cs, ∀ x, under c x → under n x)
    (houter : ∀ r, r ∈ before ∨ r ∈ after → ¬under n (node r)) :
    ArrangedAt under weight node n cs (before ++ q ++ after) := by
  obtain ⟨before', block, after', rfl, hblock, hrest⟩ := h.contiguous
  refine ⟨⟨before ++ before', block, after' ++ after, by simp, hblock, ?_⟩, ?_, ?_⟩
  · intro r hr
    simp only [mem_append] at hr
    rcases hr with (hr | hr) | (hr | hr)
    · exact houter r (.inl hr)
    · exact hrest r (.inl hr)
    · exact hrest r (.inr hr)
    · exact houter r (.inr hr)
  · intro c hc c' hc'
    apply pairwise_extend (h.by_weight c hc c' hc')
    intro r hr r'
    have hnot := houter r hr
    exact ⟨fun hu => absurd (hdown c hc _ hu) hnot, fun _ hu => absurd (hdown c' hc' _ hu) hnot⟩
  · apply pairwise_extend h.own_last
    intro r hr r'
    have hnot := houter r hr
    exact ⟨fun hown => absurd (hown ▸ hself (node r)) hnot, fun _ hu => absurd hu hnot⟩

/-- The blocks of the children by weight, and then the items of the node itself. -/
theorem of_blocks {block : ν → List α} {own : List α}
    (hcs : cs.Pairwise fun c c' => weight c' ≤ weight c)
    (hblock : ∀ c ∈ cs, ∀ r ∈ block c, under c (node r) ∧ node r ≠ n) (hown : ∀ r ∈ own, node r = n)
    (hself : ∀ m, under m m) (hdown : ∀ c ∈ cs, ∀ x, under c x → under n x)
    (hapart : ∀ c ∈ cs, ∀ c' ∈ cs, ∀ x, under c x → under c' x → c = c')
    (hnot : ∀ c ∈ cs, ¬under c n) :
    ArrangedAt under weight node n cs (cs.flatMap block ++ own) := by
  have hmem : ∀ r ∈ cs.flatMap block, ∃ c ∈ cs, under c (node r) ∧ node r ≠ n := by
    intro r hr
    obtain ⟨c, hc, hr⟩ := mem_flatMap.mp hr
    exact ⟨c, hc, hblock c hc r hr⟩
  refine ⟨⟨[], cs.flatMap block ++ own, [], by simp, ?_, ?_⟩, ?_, ?_⟩
  · intro r hr
    rcases mem_append.mp hr with hr | hr
    · obtain ⟨c, hc, hu, -⟩ := hmem r hr
      exact hdown c hc _ hu
    · exact hown r hr ▸ hself (node r)
  · rintro r (hr | hr) <;> cases hr
  · intro d hd d' hd'
    refine pairwise_append.mpr ⟨?_, ?_, ?_⟩
    · refine pairwise_flatMap.mpr ⟨?_, ?_⟩
      · -- both requests are in one block, so the siblings are the same
        intro c hc
        refine pairwise_of_forall_mem_list fun r hr r' hr' hu hu' => ?_
        obtain rfl := hapart d hd c hc _ hu (hblock c hc r hr).1
        obtain rfl := hapart d' hd' d hd _ hu' (hblock d hc r' hr').1
        exact Nat.le_refl _
      · refine hcs.imp_of_mem ?_
        intro c c' hc hc' hle r hr r' hr' hu hu'
        obtain rfl := hapart d hd c hc _ hu (hblock c hc r hr).1
        obtain rfl := hapart d' hd' c' hc' _ hu' (hblock c' hc' r' hr').1
        exact hle
    · refine pairwise_of_forall_mem_list fun r hr _ _ hu => ?_
      exact absurd (hown r hr ▸ hu) (hnot d hd)
    · intro r _ r' hr' _ hu'
      exact absurd (hown r' hr' ▸ hu') (hnot d' hd')
  · refine pairwise_append.mpr ⟨?_, ?_, ?_⟩
    · refine pairwise_of_forall_mem_list fun r hr _ _ heq => ?_
      obtain ⟨_, _, _, hne⟩ := hmem r hr
      exact absurd heq hne
    · exact pairwise_of_forall_mem_list fun _ _ r' hr' _ _ => hown r' hr'
    · intro _ _ r' hr' _ _
      exact hown r' hr'

end ArrangedAt

end Sglang.Lib.Forest
