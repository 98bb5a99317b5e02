import Sglang.Lib.Gather
import Mathlib.Algebra.BigOperators.Group.List.Lemmas
import Mathlib.Data.List.SplitLengths
import Mathlib.Tactic

/-!
# Pieces in Rows and Columns

Lists whose entries are addressed by a row and a column, and texts cut into pieces of given lengths.

- `grid n m f`: the entries `f i j`, row after row; the entry `i * m + j` is `f i j`,
- `getElem?_splitLengths`, `splitLengths_flatten`: the pieces of a list that is cut at given
  lengths,
- `perm_range`: a short list that names every index is a permutation of them.
-/

namespace Sglang.Lib

open List

variable {α β : Type*}

/-! ## Section 1: Grids -/

/-- The entries of `n` rows of `m`, row after row. -/
def grid (n m : Nat) (f : Nat → Nat → α) : List α :=
    (List.range n).flatMap fun i => (List.range m).map (f i)

section Grid

variable {n m i j : Nat} {f g : Nat → Nat → α}

theorem length_rows {rows : Nat → List α} (hrows : ∀ k < n, (rows k).length = m) :
    ((List.range n).flatMap rows).length = n * m := by
  rw [length_flatMap, map_congr_left fun k hk => hrows k (mem_range.mp hk)]
  simp

@[simp] theorem length_grid : (grid n m f).length = n * m := length_rows fun k _ => by simp

theorem grid_two : grid 2 m f = (List.range m).map (f 0) ++ (List.range m).map (f 1) := by
  simp [grid, range_succ]

theorem map_grid (h : α → β) : (grid n m f).map h = grid n m fun i j => h (f i j) := by
  simp [grid, map_flatMap, Function.comp_def]

theorem grid_congr (h : ∀ i < n, ∀ j < m, f i j = g i j) : grid n m f = grid n m g := by
  refine flatMap_congr fun i hi => map_congr_left fun j hj => ?_
  exact h i (mem_range.mp hi) j (mem_range.mp hj)

theorem take_rows {rows : Nat → List α} (hrows : ∀ k < n, (rows k).length = m) (hi : i < n)
    (hj : j ≤ m) :
    ((List.range n).flatMap rows).take (i * m + j) = (List.range i).flatMap rows ++
      (rows i).take j := by
  induction n with
  | zero => omega
  | succ n ih =>
    have hlen := length_rows fun k hk => hrows k (Nat.lt_succ_of_lt hk)
    rw [range_succ, flatMap_append, flatMap_singleton]
    rcases Nat.lt_succ_iff_lt_or_eq.mp hi with hlt | rfl
    · have hle : i * m + j ≤ n * m := by
        have := Nat.mul_le_mul_right m (Nat.succ_le_of_lt hlt)
        rw [Nat.succ_mul] at this
        omega
      rw [take_append_of_le_length (by rw [hlen]; exact hle),
        ih (fun k hk => hrows k (Nat.lt_succ_of_lt hk)) hlt]
    · rw [← hlen, take_length_add_append]

theorem getElem?_rows {rows : Nat → List α} (hrows : ∀ k < n, (rows k).length = m) (hi : i < n)
    (hj : j < m) :
    ((List.range n).flatMap rows)[i * m + j]? = (rows i)[j]? := by
  have htake := take_rows hrows hi le_rfl
  rw [← hrows i hi, take_length, hrows i hi] at htake
  rw [← getElem?_take_of_lt (show i * m + j < i * m + m by omega), htake, getElem?_append_right] <;>
    rw [length_rows fun k hk => hrows k (hk.trans hi)]
  · rw [Nat.add_sub_cancel_left]
  · omega

theorem getElem?_grid (hi : i < n) (hj : j < m) : (grid n m f)[i * m + j]? = some (f i j) := by
  rw [grid, getElem?_rows (fun k _ => by simp) hi hj, getElem?_map, getElem?_range hj]
  rfl

theorem getD_grid (hi : i < n) (hj : j < m) (a : α) : (grid n m f).getD (i * m + j) a = f i j := by
  rw [getD_eq_getElem?_getD, getElem?_grid hi hj]
  rfl

theorem exists_row_column {k : Nat} (hk : k < n * m) : ∃ i j, i < n ∧ j < m ∧ k = i * m + j := by
  have hm : 0 < m := Nat.pos_of_mul_pos_left (Nat.zero_lt_of_lt hk)
  exact ⟨k / m, k % m, Nat.div_lt_of_lt_mul (by rwa [Nat.mul_comm]), Nat.mod_lt _ hm,
    (Nat.div_add_mod' k m).symm⟩

theorem eq_grid {l : List α} (hlen : l.length = n * m)
    (h : ∀ i < n, ∀ j < m, l[i * m + j]? = some (f i j)) : l = grid n m f := by
  refine ext_getElem? fun k => ?_
  by_cases hk : k < n * m
  · obtain ⟨i, j, hi, hj, rfl⟩ := exists_row_column hk
    rw [h i hi j hj, getElem?_grid hi hj]
  · rw [getElem?_eq_none (by omega), getElem?_eq_none (by rw [length_grid]; omega)]

theorem mapM_grid {F : α → Option β} {g : Nat → Nat → β}
    (h : ∀ i < n, ∀ j < m, F (f i j) = some (g i j)) :
    (grid n m f).mapM F = some (grid n m g) := by
  induction n with
  | zero => rfl
  | succ n ih =>
    have hrow : ((List.range m).map (f n)).mapM F = some ((List.range m).map (g n)) := by
      rw [mapM_map]
      exact mapM_eq_map fun j hj => h n (Nat.lt_succ_self n) j (mem_range.mp hj)
    have hrest := ih fun i hi => h i (Nat.lt_succ_of_lt hi)
    rw [grid, grid] at *
    rw [range_succ, flatMap_append, flatMap_append, flatMap_singleton, flatMap_singleton,
      mapM_append, hrest, hrow]
    rfl

end Grid

theorem perm_range {l : List Nat} {n : Nat} (hlen : l.length ≤ n) (h : ∀ k < n, k ∈ l) : l.Perm
    (List.range n) := by
  have hsub : List.range n ⊆ l := fun k hk => h k (mem_range.mp hk)
  exact ((nodup_range.subperm hsub).perm_of_length_le (by simpa using hlen)).symm

/-! ## Section 2: Pieces of a list -/

theorem splitLengths_flatten (ls : List (List α)) :
    (ls.map List.length).splitLengths ls.flatten = ls := by
  induction ls with
  | nil => rfl
  | cons l ls ih => simp [ih]

theorem getElem?_splitLengths {sizes : List Nat} {i k : Nat} (h : sizes[i]? = some k)
    (xs : List α) :
    (sizes.splitLengths xs)[i]? = some ((xs.drop (sizes.take i).sum).take k) := by
  induction sizes generalizing i xs with
  | nil => simp at h
  | cons n sizes ih =>
    cases i with
    | zero => simp [show n = k by simpa using h]
    | succ i =>
      rw [getElem?_cons_succ] at h
      rw [splitLengths_cons, getElem?_cons_succ, ih h, take_succ_cons, sum_cons, drop_drop]

theorem slice_flatten {ls : List (List α)} {i : Nat} {l : List α} (h : ls[i]? = some l) :
    (ls.flatten.take ((ls.map List.length).take (i + 1)).sum).drop
    ((ls.map List.length).take i).sum = l := by
  obtain ⟨hi, rfl⟩ := List.getElem?_eq_some_iff.mp h
  exact drop_take_succ_flatten_eq_getElem ls i hi

theorem getElem?_scanl_add (sizes : List Nat) : ∀ (a : Nat) {i : Nat}, i ≤ sizes.length →
    (sizes.scanl (· + ·) a)[i]? = some (a + (sizes.take i).sum) := by
  induction sizes with
  | nil =>
    intro a i hi
    obtain rfl : i = 0 := by simpa using hi
    simp
  | cons n sizes ih =>
    intro a i hi
    cases i with
    | zero => simp
    | succ i =>
      rw [scanl_cons, getElem?_cons_succ, ih _ (by simpa using hi), take_succ_cons, sum_cons,
        Nat.add_assoc]

end Sglang.Lib
