import Mathlib.Data.List.Basic
import Mathlib.Data.List.TakeDrop
import Mathlib.Tactic

/-!
# Longest Common Prefixes and Page Rounding

Two general facts about lists that prefix indexes rest on:

1. `lcp a b`, the number of leading positions on which two lists agree, characterised by
   `le_lcp_iff`: `k ≤ lcp a b` exactly when both lists have `k` elements and agree on them.
2. `pageFloor ps n`, the greatest multiple of `ps` not exceeding `n`.
-/

namespace Sglang.Lib

open List

variable {α : Type*}

/-! ## Section 1: The longest common prefix -/

/-- Number of leading positions on which two lists agree. -/
def lcp [DecidableEq α] : List α → List α → Nat
  | a :: as, b :: bs => if a = b then lcp as bs + 1 else 0
  | _, _ => 0

section Lcp

variable [DecidableEq α]

/-- The defining property of `lcp`: it bounds exactly the common prefixes. -/
theorem le_lcp_iff {k : Nat} {a b : List α} :
    k ≤ lcp a b ↔ k ≤ a.length ∧ k ≤ b.length ∧ a.take k = b.take k := by
  induction a generalizing b k with
  | nil => cases k <;> simp [lcp]
  | cons x xs ih =>
    cases b with
    | nil => cases k <;> simp [lcp]
    | cons y ys =>
      cases k with
      | zero => simp
      | succ k =>
        by_cases hxy : x = y
        · simp [lcp, hxy, ih]
        · simp [lcp, hxy]

theorem lcp_le_left (a b : List α) : lcp a b ≤ a.length :=
  (le_lcp_iff.mp le_rfl).1

theorem lcp_le_right (a b : List α) : lcp a b ≤ b.length :=
  (le_lcp_iff.mp le_rfl).2.1

theorem take_lcp_eq (a b : List α) : a.take (lcp a b) = b.take (lcp a b) :=
  (le_lcp_iff.mp le_rfl).2.2

theorem lcp_take_take (a b : List α) (m n : Nat) :
    lcp (a.take m) (b.take n) = min (lcp a b) (min m n) := by
  apply eq_of_forall_le_iff
  intro k
  simp only [le_lcp_iff, length_take, le_min_iff, take_take]
  constructor
  · rintro ⟨⟨hm, ha⟩, ⟨hn, hb⟩, heq⟩
    rw [min_eq_left hm, min_eq_left hn] at heq
    exact ⟨⟨ha, hb, heq⟩, hm, hn⟩
  · rintro ⟨⟨ha, hb, heq⟩, hm, hn⟩
    rw [min_eq_left hm, min_eq_left hn]
    exact ⟨⟨hm, ha⟩, ⟨hn, hb⟩, heq⟩

theorem lcp_take_right (a b : List α) (m : Nat) : lcp a (b.take m) = min (lcp a b) m := by
  have h := lcp_take_take a b a.length m
  rw [take_length] at h
  have hle := lcp_le_left a b
  omega

theorem lcp_map {β : Type*} [DecidableEq β] (f : α → β) (hf : Function.Injective f)
    (a b : List α) : lcp (a.map f) (b.map f) = lcp a b := by
  apply eq_of_forall_le_iff
  intro k
  simp only [le_lcp_iff, length_map, ← map_take]
  rw [hf.list_map.eq_iff]

theorem lcp_append_left (p a b : List α) : lcp (p ++ a) (p ++ b) = p.length + lcp a b := by
  induction p with
  | nil => simp
  | cons x xs ih => simp [lcp, ih]; omega

theorem lcp_eq_add_drop {m : Nat} {a b : List α} (h : m ≤ lcp a b) :
    lcp a b = m + lcp (a.drop m) (b.drop m) := by
  obtain ⟨ha, hb, htake⟩ := le_lcp_iff.mp h
  have hsplit := lcp_append_left (a.take m) (a.drop m) (b.drop m)
  rw [length_take, min_eq_left ha, take_append_drop, htake, take_append_drop] at hsplit
  exact hsplit

end Lcp

/-! ## Section 2: Page rounding -/

/-- The greatest multiple of `ps` that does not exceed `n`. -/
def pageFloor (ps n : Nat) : Nat := n / ps * ps

/-- The least multiple of `ps` that is at least `n`. -/
def pageCeil (ps n : Nat) : Nat := (n + ps - 1) / ps * ps

@[simp] theorem pageFloor_one (n : Nat) : pageFloor 1 n = n := by simp [pageFloor]

theorem pageFloor_le (ps n : Nat) : pageFloor ps n ≤ n := Nat.div_mul_le_self n ps

theorem dvd_pageFloor (ps n : Nat) : ps ∣ pageFloor ps n := Nat.dvd_mul_left ps _

theorem pageFloor_eq_self {ps n : Nat} (h : ps ∣ n) : pageFloor ps n = n :=
  Nat.div_mul_cancel h

theorem le_pageFloor_iff {ps k n : Nat} (hk : ps ∣ k) : k ≤ pageFloor ps n ↔ k ≤ n := by
  constructor
  · intro h
    exact h.trans (pageFloor_le ps n)
  · intro h
    calc k = k / ps * ps := (Nat.div_mul_cancel hk).symm
      _ ≤ n / ps * ps := Nat.mul_le_mul_right ps (Nat.div_le_div_right h)

theorem lt_pageFloor_add {ps : Nat} (hps : 0 < ps) (n : Nat) : n < pageFloor ps n + ps := by
  have h := Nat.div_add_mod n ps
  have hmod := Nat.mod_lt n hps
  simp only [pageFloor]
  rw [Nat.mul_comm (n / ps) ps]
  omega

theorem pageFloor_add_of_dvd {ps k : Nat} (hps : 0 < ps) (hk : ps ∣ k) (n : Nat) :
    pageFloor ps (k + n) = k + pageFloor ps n := by
  obtain ⟨q, rfl⟩ := hk
  simp only [pageFloor]
  rw [Nat.mul_add_div hps, Nat.add_mul, Nat.mul_comm q ps]

end Sglang.Lib
