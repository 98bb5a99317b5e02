import Mathlib.Algebra.BigOperators.Group.Finset.Basic
import Mathlib.Data.Finset.Range
import Mathlib.Tactic

/-!
# Sums over Heaps

Totals over all cells of a heap whose identities are drawn from a counter. A mutation is a
point update of the heap, so a total changes by the contribution of that cell alone.
-/

namespace Sglang.Lib

open Function
open Finset

variable {N M : Type*} [AddCommMonoid M]

/-- Sum of `f` over the cells with identity below `n`. -/
def nodeSum (f : Option N → M) (nodes : Nat → Option N) (n : Nat) : M :=
  ∑ i ∈ range n, f (nodes i)

theorem nodeSum_update (f : Option N → M) (nodes : Nat → Option N) {n i : Nat} (hi : i < n)
    (v : Option N) :
    nodeSum f (update nodes i v) n + f (nodes i) = nodeSum f nodes n + f v := by
  have hmem : i ∈ range n := mem_range.mpr hi
  have hcomp : ∀ j, f (update nodes i v j) =
      update (fun j => f (nodes j)) i (f v) j := by
    intro j
    by_cases hj : j = i
    · subst hj
      simp
    · simp [update_of_ne hj]
  simp only [nodeSum, hcomp]
  rw [sum_update_of_mem hmem, sdiff_singleton_eq_erase,
    ← add_sum_erase (range n) (fun j => f (nodes j)) hmem]
  rw [add_comm (f v), add_right_comm]
  rw [add_comm (∑ j ∈ (range n).erase i, f (nodes j)) (f (nodes i))]

theorem nodeSum_succ {f : Option N → M} (hf : f none = 0) {nodes : Nat → Option N} {n : Nat}
    (hn : nodes n = none) : nodeSum f nodes (n + 1) = nodeSum f nodes n := by
  simp [nodeSum, sum_range_succ, hn, hf]

theorem nodeSum_congr {N' : Type*} {f : Option N → M} {g : Option N' → M}
    {nodes : Nat → Option N} {nodes' : Nat → Option N'} {n : Nat}
    (h : ∀ i, i < n → f (nodes i) = g (nodes' i)) : nodeSum f nodes n = nodeSum g nodes' n :=
  sum_congr rfl fun i hi => h i (mem_range.mp hi)

theorem existsUnique_of_nodup_sum {ι α : Type*} {F : Finset ι} {f : ι → Multiset α}
    (hnodup : (∑ i ∈ F, f i).Nodup) {x : α} (hx : x ∈ ∑ i ∈ F, f i) : ∃! i, i ∈ F ∧ x ∈ f i := by
  classical
  obtain ⟨i, hi, hxi⟩ := Multiset.mem_sum.mp hx
  refine ⟨i, ⟨hi, hxi⟩, ?_⟩
  rintro j ⟨hj, hxj⟩
  by_contra hne
  rw [← add_sum_erase F f hi, Multiset.nodup_add] at hnodup
  have hrest : x ∈ ∑ k ∈ F.erase i, f k :=
    Multiset.mem_sum.mpr ⟨j, mem_erase.mpr ⟨hne, hj⟩, hxj⟩
  exact Multiset.disjoint_left.mp hnodup.2.2 hxi hrest

end Sglang.Lib
