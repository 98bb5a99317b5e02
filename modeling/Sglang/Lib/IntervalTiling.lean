import Mathlib.Data.List.Basic
import Mathlib.Tactic

/-!
# Interval Tilings

Lists of closed intervals that follow each other without a gap, and the bisection that finds the
interval of a number.

- `Tiles`: the intervals start at a number, end at another, and leave nothing out,
- `Tiles.exists_index`, `Tiles.ordered`, `Tiles.end_le`: every number has an interval, and only one,
- `bisect`: a binary search that is told on which side to go on,
- `bisect_eq_some`, `side_of_bisect`: it finds what it is led to.
-/

namespace Sglang.Lib

/-! ## Section 1: Tilings -/

/-- The intervals follow each other from `lo` to `top`. -/
inductive Tiles (top : Nat) : Nat → List (Nat × Nat) → Prop where
  | last {lo : Nat} (h : lo ≤ top) : Tiles top lo [(lo, top)]
  | cons {lo hi : Nat} {rest : List (Nat × Nat)} (h : lo ≤ hi) (tail : Tiles top (hi + 1) rest) :
      Tiles top lo ((lo, hi) :: rest)

variable {top lo c : Nat} {l : List (Nat × Nat)}

theorem Tiles.exists_index (h : Tiles top lo l) (hlo : lo ≤ c) (htop : c ≤ top) :
    ∃ (k : Nat) (r : Nat × Nat), l[k]? = some r ∧ r.1 ≤ c ∧ c ≤ r.2 := by
  induction h with
  | last _ => exact ⟨0, _, rfl, hlo, htop⟩
  | @cons lo hi rest hle tail ih =>
    by_cases hc : c ≤ hi
    · exact ⟨0, _, rfl, hlo, hc⟩
    · obtain ⟨k, r, hk, hr⟩ := ih (by omega)
      exact ⟨k + 1, r, hk, hr⟩

theorem Tiles.start_le (h : Tiles top lo l) : ∀ {k : Nat} {r : Nat × Nat}, l[k]? = some r →
    lo ≤ r.1 ∧ r.1 ≤ r.2 := by
  induction h with
  | last hle =>
    intro k r hk
    cases k with
    | zero =>
      cases hk
      exact ⟨le_refl _, hle⟩
    | succ k => cases hk
  | @cons lo hi rest hle tail ih =>
    intro k r hk
    cases k with
    | zero =>
      cases hk
      exact ⟨le_refl _, hle⟩
    | succ k =>
      have hrest := ih hk
      exact ⟨by omega, hrest.2⟩

theorem Tiles.ordered (h : Tiles top lo l) : ∀ {i j : Nat} {r s : Nat × Nat}, i < j →
    l[i]? = some r → l[j]? = some s → r.2 < s.1 := by
  induction h with
  | last _ =>
    intro i j r s hij _ hj
    obtain ⟨j, rfl⟩ : ∃ m, j = m + 1 := ⟨j - 1, by omega⟩
    cases hj
  | @cons lo hi rest hle tail ih =>
    intro i j r s hij hi' hj
    obtain ⟨j, rfl⟩ : ∃ m, j = m + 1 := ⟨j - 1, by omega⟩
    cases i with
    | zero =>
      cases hi'
      exact (tail.start_le hj).1
    | succ i => exact ih (Nat.lt_of_succ_lt_succ hij) hi' hj

theorem Tiles.end_le (h : Tiles top lo l) : ∀ r ∈ l, r.2 ≤ top := by
  induction h with
  | last _ =>
    intro r hr
    rw [List.mem_singleton.mp hr]
  | @cons lo hi rest _ tail ih =>
    intro r hr
    rcases List.mem_cons.mp hr with rfl | hr
    · -- the next interval starts behind this one and ends at or before the last one
      cases tail with
      | last hle => exact (Nat.le_succ hi).trans hle
      | @cons _ hi' rest hle tail => exact (show hi ≤ hi' by omega).trans (ih _ List.mem_cons_self)
    · exact ih r hr

/-! ## Section 2: Bisection -/

/-- Binary search between `left` and `right`: below `mid` where `side mid` is `lt`, above where it
is `gt`. -/
def bisect (side : Nat → Ordering) : Nat → Nat → Nat → Option Nat
  | 0, _, _ => none
  | fuel + 1, left, right =>
    if left < right then
      let mid := left + (right - left) / 2
      match side mid with
      | .lt => bisect side fuel left mid
      | .gt => bisect side fuel (mid + 1) right
      | .eq => some mid
    else none

theorem bisect_eq_some {side : Nat → Ordering} {k : Nat} (hk : side k = .eq)
    (hbelow : ∀ j < k, side j = .gt) (habove : ∀ j, k < j → side j = .lt) :
    ∀ {fuel left right : Nat}, left ≤ k → k < right → right - left < fuel →
      bisect side fuel left right = some k := by
  intro fuel
  induction fuel with
  | zero => exact fun _ _ hfuel => absurd hfuel (Nat.not_lt_zero _)
  | succ fuel ih =>
    intro left right hleft hright hfuel
    have hlt : left < right := by omega
    unfold bisect
    simp only [hlt, if_true]
    rcases Nat.lt_trichotomy (left + (right - left) / 2) k with hmid | hmid | hmid
    · rw [hbelow _ hmid]
      exact ih hmid hright (by omega)
    · rw [hmid, hk]
    · rw [habove _ hmid]
      exact ih hleft hmid (by omega)

theorem side_of_bisect {side : Nat → Ordering} : ∀ {fuel left right k : Nat},
    bisect side fuel left right = some k → side k = .eq := by
  intro fuel
  induction fuel with
  | zero =>
    intro left right k h
    cases h
  | succ fuel ih =>
    intro left right k h
    unfold bisect at h
    split at h
    · dsimp only at h
      split at h
      · exact ih h
      · exact ih h
      · next heq =>
        rw [Option.some.injEq] at h
        exact h ▸ heq
    · cases h

theorem bisect_self (side : Nat → Ordering) (fuel left : Nat) :
    bisect side fuel left left = none := by
  cases fuel with
  | zero => rfl
  | succ fuel => simp only [bisect, lt_irrefl, if_false]

end Sglang.Lib
