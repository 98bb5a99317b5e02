import Mathlib.Data.Int.Interval
import Mathlib.Data.List.Dedup
import Mathlib.Tactic

/-!
# Packed Bands of Integers

A band `[lo, hi)` of integers, listed without duplicates.

- `length_of_mem_Ico`: the length of the list,
- `mem_iff_of_separated`: if the elements of one part all lie below those of the other, the first
  part is the lower end of the band.
-/

namespace Sglang.Lib

open List

theorem length_of_mem_Ico {l : List Int} {lo hi : Int} (hnodup : l.Nodup)
    (hmem : ∀ x, x ∈ l ↔ lo ≤ x ∧ x < hi) : l.length = (hi - lo).toNat := by
  have hset : l.toFinset = Finset.Ico lo hi := by
    ext x
    rw [mem_toFinset, Finset.mem_Ico, hmem]
  rw [← toFinset_card_of_nodup hnodup, hset, Int.card_Ico]

theorem mem_iff_of_separated {A B : List Int} (lo hi : Int) (hnodup : (A ++ B).Nodup)
    (hmem : ∀ x, x ∈ A ++ B ↔ lo ≤ x ∧ x < hi) (hsep : ∀ a ∈ A, ∀ b ∈ B, a < b) (x : Int) :
    x ∈ A ↔ lo ≤ x ∧ x < hi - B.length := by
  obtain ⟨_, hB, hdisj⟩ := nodup_append.mp hnodup
  have hcard : B.toFinset.card = B.length := toFinset_card_of_nodup hB
  -- everything above an element of `B` is in `B`
  have hup : ∀ b ∈ B, Finset.Ico b hi ⊆ B.toFinset := by
    intro b hb y hy
    obtain ⟨hby, hyhi⟩ := Finset.mem_Ico.mp hy
    have hlo := ((hmem b).mp (mem_append_right _ hb)).1
    rcases mem_append.mp ((hmem y).mpr ⟨hlo.trans hby, hyhi⟩) with hyA | hyB
    · exact absurd (hsep y hyA b hb) (by omega)
    · exact mem_toFinset.mpr hyB
  have hsub : B.toFinset ⊆ Finset.Ico (hi - B.length) hi := by
    intro b hb
    have hb := mem_toFinset.mp hb
    have hle := Finset.card_le_card (hup b hb)
    rw [hcard, Int.card_Ico] at hle
    have hlt := ((hmem b).mp (mem_append_right _ hb)).2
    exact Finset.mem_Ico.mpr ⟨by omega, hlt⟩
  have heq : B.toFinset = Finset.Ico (hi - B.length) hi :=
    Finset.eq_of_subset_of_card_le hsub (by rw [hcard, Int.card_Ico]; omega)
  have hBiff : x ∈ B ↔ hi - B.length ≤ x ∧ x < hi := by
    rw [← mem_toFinset, heq, Finset.mem_Ico]
  constructor
  · intro hx
    have hband := (hmem x).mp (mem_append_left _ hx)
    refine ⟨hband.1, ?_⟩
    by_contra hge
    exact hdisj x hx x (hBiff.mpr ⟨by omega, hband.2⟩) rfl
  · rintro ⟨hlo, hlt⟩
    refine (mem_append.mp ((hmem x).mpr ⟨hlo, by omega⟩)).resolve_right ?_
    rw [hBiff]
    omega

end Sglang.Lib
