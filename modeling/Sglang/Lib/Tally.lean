import Mathlib.Data.List.Basic
import Mathlib.Tactic

/-!
# Tallies

A total over a list of parties. Where one of them changes, the total changes by its share alone.
-/

namespace Sglang.Lib

open List

variable {α : Type*}

theorem sum_map_set (f : α → Nat) {b : α} : ∀ {l : List α} {i : Nat} {a : α},
    l[i]? = some a → ((l.set i b).map f).sum + f a = (l.map f).sum + f b := by
  intro l
  induction l with
  | nil =>
    intro i a h
    cases h
  | cons c l ih =>
    intro i a h
    cases i with
    | zero =>
      cases h
      simp only [set_cons_zero, map_cons, sum_cons]
      omega
    | succ i =>
      have := ih h
      simp only [set_cons_succ, map_cons, sum_cons]
      omega

theorem le_sum_map (f : α → Nat) {l : List α} {a : α} (h : a ∈ l) : f a ≤ (l.map f).sum :=
  single_le_sum (fun _ _ => Nat.zero_le _) _ (mem_map_of_mem h)

theorem sum_map_eq_zero {f : α → Nat} {l : List α} (h : ∀ a ∈ l, f a = 0) : (l.map f).sum = 0 := by
  rw [sum_eq_zero_iff]
  intro n hn
  obtain ⟨a, ha, rfl⟩ := mem_map.mp hn
  exact h a ha

theorem countP_le_sum_map {f : α → Nat} {p : α → Bool} (h : ∀ a, p a = true → 1 ≤ f a)
    (l : List α) :
    l.countP p ≤ (l.map f).sum := by
  induction l with
  | nil => exact Nat.zero_le _
  | cons a l ih =>
    rw [countP_cons, map_cons, sum_cons]
    have := h a
    split
    · next hp =>
      have := this hp
      omega
    · omega

end Sglang.Lib
