import Mathlib.Data.Set.Finite.Lemmas
import Mathlib.Order.Interval.Finset.Nat
import Sglang.Lib.Scatter

/-!
# Permutations of Indices

Rearrangements of the positions of a row, as functions that are bijections of `Set.Iio n`.

- `bijOn_of_injOn`: an injective map of the positions is onto,
- `inverse`: the inverse, written by a scatter,
- `bijOn_code`: a block and a place in it, as one number,
- `bijOn_blocks`: a rearrangement of blocks that keeps the places in them.
-/

namespace Sglang.Lib

open List
open Set

variable {n c : Nat} {f g : Nat → Nat}

theorem bijOn_of_injOn (hmaps : MapsTo f (Iio n) (Iio n)) (hinj : InjOn f (Iio n)) :
    BijOn f (Iio n) (Iio n) := by
  refine ⟨hmaps, hinj, ?_⟩
  have hsub : f '' Iio n ⊆ Iio n := hmaps.image_subset
  have hcard : (Iio n).ncard ≤ (f '' Iio n).ncard := hinj.ncard_image.ge
  exact (eq_of_subset_of_ncard_le hsub hcard (finite_Iio n)).ge

/-- `inv.scatter_(perm, arange(n))`. -/
def inverse (n : Nat) (perm : Nat → Nat) : Nat → Nat :=
  scatter (fun _ => 0) ((List.range n).map fun i => (perm i, i))

theorem inverse_apply (hinj : InjOn f (Iio n)) {i : Nat} (hi : i < n) : inverse n f (f i) = i := by
  apply scatter_eq
  · rw [map_map]
    refine List.Nodup.map_on ?_ nodup_range
    intro i hi j hj heq
    exact hinj (mem_range.mp hi) (mem_range.mp hj) heq
  · exact mem_map.mpr ⟨i, mem_range.mpr hi, rfl⟩

theorem apply_inverse (h : BijOn f (Iio n) (Iio n)) {j : Nat} (hj : j < n) : f
    (inverse n f j) = j := by
  obtain ⟨i, hi, rfl⟩ := h.surjOn hj
  rw [inverse_apply h.injOn hi]

theorem bijOn_inverse (h : BijOn f (Iio n) (Iio n)) : BijOn (inverse n f) (Iio n) (Iio n) := by
  apply bijOn_of_injOn
  · intro j hj
    obtain ⟨i, hi, rfl⟩ := h.surjOn hj
    rw [inverse_apply h.injOn hi]
    exact hi
  · intro j hj j' hj' heq
    rw [← apply_inverse h hj, heq, apply_inverse h hj']

theorem block_eq_iff {a b i j : Nat} (hi : i < c) (hj : j < c) :
    a * c + i = b * c + j ↔ a = b ∧ i = j := by
  constructor
  · intro heq
    have hdiv := congrArg (· / c) heq
    have hmod := congrArg (· % c) heq
    have hc : 0 < c := by omega
    simp only [Nat.mul_add_mod_of_lt hi, Nat.mul_add_mod_of_lt hj] at hmod
    simp only [Nat.add_div_of_dvd_right (Nat.dvd_mul_left c _), Nat.mul_div_cancel _ hc,
      Nat.div_eq_of_lt hi, Nat.div_eq_of_lt hj, Nat.add_zero] at hdiv
    exact ⟨hdiv, hmod⟩
  · rintro ⟨rfl, rfl⟩
    rfl

theorem block_lt {a i m : Nat} (ha : a < m) (hi : i < c) : a * c + i < m * c :=
  calc a * c + i < (a + 1) * c := by rw [Nat.add_mul, Nat.one_mul]; omega
    _ ≤ m * c := Nat.mul_le_mul_right c ha

theorem bijOn_code {m : Nat} (hn : m * c = n) {block place : Nat → Nat}
    (hblock : ∀ i < n, block i < m) (hplace : ∀ i < n, place i < c)
    (hinj : ∀ i < n, ∀ j < n, block i = block j → place i = place j → i = j) :
    BijOn (fun i => block i * c + place i) (Iio n) (Iio n) := by
  apply bijOn_of_injOn
  · intro i hi
    exact hn ▸ block_lt (hblock i hi) (hplace i hi)
  · intro i hi j hj heq
    obtain ⟨hb, hp⟩ := (block_eq_iff (hplace i hi) (hplace j hj)).mp heq
    exact hinj i hi j hj hb hp

/-- Blocks are rearranged, and what is in them stays in its place. -/
theorem bijOn_blocks (h : BijOn f (Iio n) (Iio n)) :
    BijOn (fun i => f (i / c) * c + i % c) (Iio (n * c)) (Iio (n * c)) := by
  have hdiv : ∀ i < n * c, i / c < n := fun i hi => Nat.div_lt_of_lt_mul (by rwa [Nat.mul_comm])
  have hpos : ∀ i < n * c, 0 < c := by
    intro i hi
    rcases Nat.eq_zero_or_pos c with rfl | hc
    · simp at hi
    · exact hc
  apply bijOn_code rfl (fun i hi => h.mapsTo (hdiv i hi)) (fun i hi => Nat.mod_lt _ (hpos i hi))
  intro i hi j hj hb hp
  have hblock := h.injOn (hdiv i hi) (hdiv j hj) hb
  rw [← Nat.div_add_mod i c, hblock, hp, Nat.div_add_mod]

end Sglang.Lib
