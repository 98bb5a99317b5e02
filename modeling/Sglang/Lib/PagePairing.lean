import Sglang.Lib.PageRow
import Sglang.Lib.Scatter

/-!
# Pairing Pages through a Slot Table

Two pools of pages and a table from the slots of the first to the slots of the second, with 0 for
"not mapped". Pages are paired one to one, and a mapped slot goes to the slot with the same offset
on the paired page.

- `Paired.bind`: slot pairs are written that follow a pairing of new pages,
- `Paired.release`: whole pages of the first pool are unmapped.
-/

namespace Sglang.Lib

open List

variable {ps : Nat} {m : Nat → Nat} {prs news : List (Nat × Nat)}

/-! ## Section 1: Paired tables -/

/-- The table `m` follows the pairing `prs` of pages, and every pair is in use. -/
structure Paired (ps : Nat) (m : Nat → Nat) (prs : List (Nat × Nat)) : Prop where
  fst_nodup : (prs.map Prod.fst).Nodup
  snd_nodup : (prs.map Prod.snd).Nodup
  pos : ∀ pq ∈ prs, 0 < pq.2
  offset : ∀ {x}, m x ≠ 0 → m x % ps = x % ps
  page : ∀ {x}, m x ≠ 0 → (x / ps, m x / ps) ∈ prs
  covered : ∀ pq ∈ prs, ∃ x, m x ≠ 0 ∧ x / ps = pq.1

namespace Paired

theorem empty : Paired ps (fun _ => 0) [] := by
  refine ⟨by simp, by simp, by simp, ?_, ?_, by simp⟩ <;> intro x hx <;> exact absurd rfl hx

theorem snd_eq (h : Paired ps m prs) {p q q' : Nat} (hq : (p, q) ∈ prs) (hq' : (p, q') ∈ prs) :
    q = q' :=
  congrArg Prod.snd (inj_on_of_nodup_map h.fst_nodup hq hq' rfl)

theorem fst_eq (h : Paired ps m prs) {p p' q : Nat} (hp : (p, q) ∈ prs) (hp' : (p', q) ∈ prs) :
    p = p' :=
  congrArg Prod.fst (inj_on_of_nodup_map h.snd_nodup hp hp' rfl)

theorem injective (h : Paired ps m prs) {x y : Nat} (hx : m x ≠ 0) (hxy : m x = m y) : x = y := by
  have hy : m y ≠ 0 := hxy ▸ hx
  have hpage : x / ps = y / ps := by
    have hpx := h.page hx
    rw [hxy] at hpx
    exact h.fst_eq hpx (h.page hy)
  have hoff : x % ps = y % ps := by
    rw [← h.offset hx, ← h.offset hy, hxy]
  rw [← Nat.div_add_mod x ps, ← Nat.div_add_mod y ps, hpage, hoff]

theorem mem_snd (h : Paired ps m prs) {q : Nat} :
    q ∈ prs.map Prod.snd ↔ ∃ x, m x ≠ 0 ∧ m x / ps = q := by
  constructor
  · intro hq
    obtain ⟨⟨p, q⟩, hpq, rfl⟩ := mem_map.mp hq
    obtain ⟨x, hx, hp⟩ := h.covered _ hpq
    have hpage := h.page hx
    rw [hp] at hpage
    exact ⟨x, hx, h.snd_eq hpage hpq⟩
  · rintro ⟨x, hx, rfl⟩
    exact mem_map.mpr ⟨_, h.page hx, rfl⟩

end Paired

/-! ## Section 2: Writing pairs of slots -/

/-- The pairs of slots `ws` go in lockstep over the new pairs of pages, each of which they use, and
over pairs of pages that `Old` knows. -/
structure Lockstep (ps : Nat) (Old : Nat → Nat → Prop) (ws news : List (Nat × Nat)) : Prop where
  offset : ∀ w ∈ ws, w.2 % ps = w.1 % ps
  page : ∀ w ∈ ws, (w.1 / ps, w.2 / ps) ∈ news ∨ Old (w.1 / ps) (w.2 / ps)
  covered : ∀ pq ∈ news, ∃ w ∈ ws, (w.1 / ps, w.2 / ps) = pq

namespace Lockstep

variable {Old : Nat → Nat → Prop} {ws ws' news' : List (Nat × Nat)}

theorem nil : Lockstep ps Old [] [] := by
  refine ⟨?_, ?_, ?_⟩ <;> simp

theorem append (h : Lockstep ps Old ws news) (h' : Lockstep ps Old ws' news') :
    Lockstep ps Old (ws ++ ws') (news ++ news') := by
  refine ⟨?_, ?_, ?_⟩
  · intro w hw
    rcases mem_append.mp hw with hw | hw
    · exact h.offset w hw
    · exact h'.offset w hw
  · intro w hw
    rcases mem_append.mp hw with hw | hw
    · exact (h.page w hw).imp_left (mem_append_left _)
    · exact (h'.page w hw).imp_left (mem_append_right _)
  · intro pq hpq
    rcases mem_append.mp hpq with hpq | hpq
    · obtain ⟨w, hw, heq⟩ := h.covered pq hpq
      exact ⟨w, mem_append_left _ hw, heq⟩
    · obtain ⟨w, hw, heq⟩ := h'.covered pq hpq
      exact ⟨w, mem_append_right _ hw, heq⟩

theorem single : Lockstep 1 Old ws ws := by
  refine ⟨fun w _ => by omega, fun w hw => .inl ?_, fun pq hpq => ⟨pq, hpq, ?_⟩⟩ <;>
    simp only [Nat.div_one, Prod.mk.eta]
  exact hw

end Lockstep

theorem Paired.bind (h : Paired ps m prs) {ws : List (Nat × Nat)}
    (hws : Lockstep ps (fun p q => (p, q) ∈ prs) ws news)
    (hfst : ((prs ++ news).map Prod.fst).Nodup) (hsnd : ((prs ++ news).map Prod.snd).Nodup)
    (hpos : ∀ pq ∈ news, 0 < pq.2) : Paired ps (scatter m ws) (prs ++ news) := by
  have hall : ∀ pq ∈ prs ++ news, 0 < pq.2 := by
    intro pq hpq
    rcases mem_append.mp hpq with hpq | hpq
    · exact h.pos pq hpq
    · exact hpos pq hpq
  have hpage : ∀ w ∈ ws, (w.1 / ps, w.2 / ps) ∈ prs ++ news := by
    intro w hw
    rcases hws.page w hw with hn | ho
    · exact mem_append_right _ hn
    · exact mem_append_left _ ho
  have hne : ∀ w ∈ ws, w.2 ≠ 0 := by
    intro w hw hz
    have := hall _ (hpage w hw)
    simp [hz] at this
  -- a mapped slot stays mapped
  have hkeep : ∀ {x}, m x ≠ 0 → scatter m ws x ≠ 0 := by
    intro x hx
    rcases scatter_cases _ (t := m) x with ⟨_, heq⟩ | hmem
    · rw [heq]
      exact hx
    · exact hne _ hmem
  refine ⟨hfst, hsnd, hall, ?_, ?_, ?_⟩
  · intro x hx
    rcases scatter_cases _ (t := m) x with ⟨_, heq⟩ | hmem
    · rw [heq] at hx ⊢
      exact h.offset hx
    · exact hws.offset _ hmem
  · intro x hx
    rcases scatter_cases _ (t := m) x with ⟨_, heq⟩ | hmem
    · rw [heq] at hx ⊢
      exact mem_append_left _ (h.page hx)
    · exact hpage _ hmem
  · intro pq hpq
    rcases mem_append.mp hpq with hpq | hpq
    · obtain ⟨x, hx, hp⟩ := h.covered pq hpq
      exact ⟨x, hkeep hx, hp⟩
    · obtain ⟨w, hw, heq⟩ := hws.covered pq hpq
      refine ⟨w.1, ?_, congrArg Prod.fst heq⟩
      rcases scatter_cases _ (t := m) w.1 with ⟨hnot, _⟩ | hmem
      · exact absurd hw (hnot w.2)
      · exact hne _ hmem

/-! ## Section 3: Unmapping whole pages -/

def unmapAll (m : Nat → Nat) (xs : List Nat) (x : Nat) : Nat := if x ∈ xs then 0 else m x

/-- The pairs of pages outside `pgs`. -/
def keepPairs (pgs : List Nat) (prs : List (Nat × Nat)) : List (Nat × Nat) :=
  prs.filter fun pq => pq.1 ∉ pgs

/-- The partners of the pages `pgs`. -/
def partners (pgs : List Nat) (prs : List (Nat × Nat)) : List Nat :=
  (prs.filter fun pq => pq.1 ∈ pgs).map Prod.snd

theorem partners_perm (pgs : List Nat) (prs : List (Nat × Nat)) :
    (partners pgs prs ++ (keepPairs pgs prs).map Prod.snd).Perm (prs.map Prod.snd) := by
  unfold partners keepPairs
  rw [← map_append]
  refine List.Perm.map _ ?_
  simpa using filter_append_perm (fun pq : Nat × Nat => decide (pq.1 ∈ pgs)) prs

namespace Paired

variable {pgs : List Nat}

theorem release (h : Paired ps m prs) (hps : 0 < ps) (pgs : List Nat) :
    Paired ps (unmapAll m (expand ps pgs)) (keepPairs pgs prs) := by
  have hsub : (keepPairs pgs prs).Sublist prs := filter_sublist
  have hold : ∀ {x}, unmapAll m (expand ps pgs) x ≠ 0 →
      x / ps ∉ pgs ∧ unmapAll m (expand ps pgs) x = m x ∧ m x ≠ 0 := by
    intro x hx
    unfold unmapAll at hx ⊢
    split at hx
    · exact absurd rfl hx
    · next hnot =>
      exact ⟨fun hp => hnot ((mem_expand hps).mpr hp), by rw [if_neg hnot], hx⟩
  refine ⟨(hsub.map _).nodup h.fst_nodup, (hsub.map _).nodup h.snd_nodup,
    fun pq hpq => h.pos pq (hsub.subset hpq), ?_, ?_, ?_⟩
  · intro x hx
    obtain ⟨_, heq, hx⟩ := hold hx
    rw [heq]
    exact h.offset hx
  · intro x hx
    obtain ⟨hnot, heq, hx⟩ := hold hx
    rw [heq]
    exact mem_filter.mpr ⟨h.page hx, by simpa using hnot⟩
  · intro pq hpq
    obtain ⟨hpq, hnot⟩ := mem_filter.mp hpq
    obtain ⟨x, hx, hp⟩ := h.covered pq hpq
    refine ⟨x, ?_, hp⟩
    have hnot : pq.1 ∉ pgs := by simpa using hnot
    rw [unmapAll, if_neg]
    · exact hx
    · rw [mem_expand hps, hp]
      exact hnot

theorem mem_partners (h : Paired ps m prs) (hps : 0 < ps) {q : Nat} :
    q ∈ partners pgs prs ↔ ∃ y ∈ ((expand ps pgs).map m).filter (0 < ·), y / ps = q := by
  unfold partners
  simp only [mem_map, mem_filter, decide_eq_true_eq]
  constructor
  · rintro ⟨⟨p, q⟩, ⟨hpq, hp⟩, rfl⟩
    obtain ⟨x, hx, rfl⟩ := h.covered _ hpq
    exact ⟨m x, ⟨⟨x, (mem_expand hps).mpr hp, rfl⟩, Nat.pos_of_ne_zero hx⟩,
      h.snd_eq (h.page hx) hpq⟩
  · rintro ⟨_, ⟨⟨x, hxp, rfl⟩, hx⟩, rfl⟩
    exact ⟨_, ⟨h.page hx.ne', (mem_expand hps).mp hxp⟩, rfl⟩

theorem partners_nodup (h : Paired ps m prs) (pgs : List Nat) : (partners pgs prs).Nodup :=
  (filter_sublist.map _).nodup h.snd_nodup

end Paired

end Sglang.Lib
