import Sglang.Lib.Scatter

/-!
# Inverse Tables

Two partial tables, one the inverse of the other, under bulk writes that keep them so.

- `InverseTables.bind`: fresh pairs are added,
- `InverseTables.release`: pairs are taken out,
- `InverseTables.move`: keys of the second table are exchanged for fresh ones.

`mapM_eq_some` and `mapM_isSome` are about looking up all keys of a list.
-/

namespace Sglang.Lib

open List Option Function

variable {κ ι : Type*}

/-- `f v = p` exactly if `g p = v`. -/
def InverseTables (f : κ → Option ι) (g : ι → Option κ) : Prop :=
  ∀ v p, f v = some p ↔ g p = some v

/-! ## Section 1: One table -/

theorem mapM_eq_some {f : κ → Option ι} : ∀ {vs : List κ} {ps : List ι}, vs.mapM f = some ps →
    vs.length = ps.length ∧ ∀ w ∈ vs.zip ps, f w.1 = some w.2 := by
  intro vs
  induction vs with
  | nil =>
    intro ps h
    cases h
    simp
  | cons v vs ih =>
    intro ps h
    rw [mapM_cons] at h
    obtain ⟨p, hp, h⟩ := bind_eq_some_iff.mp h
    obtain ⟨ps', hps', h⟩ := bind_eq_some_iff.mp h
    cases h
    obtain ⟨hlen, hzip⟩ := ih hps'
    refine ⟨by simp [hlen], ?_⟩
    intro w hw
    rcases mem_cons.mp hw with rfl | hw
    · exact hp
    · exact hzip w hw

theorem mapM_isSome {f : κ → Option ι} {vs : List κ} (h : ∀ v ∈ vs, (f v).isSome) :
    ∃ ps, vs.mapM f = some ps := by
  induction vs with
  | nil => exact ⟨[], rfl⟩
  | cons v vs ih =>
    obtain ⟨p, hp⟩ := isSome_iff_exists.mp (h v (by simp))
    obtain ⟨ps, hps⟩ := ih fun w hw => h w (mem_cons_of_mem _ hw)
    exact ⟨p :: ps, by rw [mapM_cons, hp, hps]; rfl⟩

section OneTable

variable [DecidableEq κ] {f : κ → Option ι}

theorem scatter_bind_iff {prs : List (κ × ι)} (hnodup : (prs.map Prod.fst).Nodup)
    (hfresh : ∀ w ∈ prs, f w.1 = none) (v : κ) (p : ι) :
    scatter f (prs.map fun w => (w.1, some w.2)) v = some p ↔ (v, p) ∈ prs ∨ f v = some p := by
  have hkeys : (prs.map fun w => (w.1, some w.2)).map Prod.fst = prs.map Prod.fst := by
    simp [comp_def]
  constructor
  · intro h
    rcases scatter_cases _ (t := f) v with ⟨_, heq⟩ | hmem
    · exact .inr (heq ▸ h)
    · rw [h] at hmem
      obtain ⟨w, hw, heq⟩ := List.mem_map.mp hmem
      obtain ⟨rfl, hp⟩ := Prod.mk.inj heq
      cases hp
      exact .inl hw
  · rintro (hmem | h)
    · exact scatter_eq (hkeys ▸ hnodup) (List.mem_map.mpr ⟨_, hmem, rfl⟩)
    · rw [scatter_of_not_mem, h]
      rw [hkeys]
      intro hv
      obtain ⟨w, hw, rfl⟩ := List.mem_map.mp hv
      rw [hfresh w hw] at h
      cases h

theorem scatter_release_iff (vs : List κ) (v : κ) (p : ι) :
    scatter f (vs.map fun v => (v, none)) v = some p ↔ v ∉ vs ∧ f v = some p := by
  rw [scatter_const]
  split
  · next hv => simp [hv]
  · next hv => simp [hv]

end OneTable

namespace InverseTables

variable {f : κ → Option ι} {g : ι → Option κ}

theorem injective (h : InverseTables f g) {v w : κ} {p : ι} (hv : f v = some p)
    (hw : f w = some p) : v = w :=
  Option.some.inj (((h v p).mp hv).symm.trans ((h w p).mp hw))

variable [DecidableEq κ] [DecidableEq ι]

/-! ## Section 2: Bulk writes of both tables -/

theorem bind (h : InverseTables f g) (prs : List (κ × ι)) (hfst : (prs.map Prod.fst).Nodup)
    (hsnd : (prs.map Prod.snd).Nodup) (hf : ∀ w ∈ prs, f w.1 = none)
    (hg : ∀ w ∈ prs, g w.2 = none) :
    InverseTables (scatter f (prs.map fun w => (w.1, some w.2)))
      (scatter g (prs.map fun w => (w.2, some w.1))) := by
  intro v p
  -- the second table is written with the swapped pairs
  have hswap : prs.map (fun w => (w.2, some w.1)) =
      (prs.map Prod.swap).map fun w => (w.1, some w.2) := by simp [comp_def]
  rw [hswap, scatter_bind_iff hfst hf, scatter_bind_iff, h v p]
  · simp
  · simpa [comp_def] using hsnd
  · intro w hw
    obtain ⟨w', hw', rfl⟩ := List.mem_map.mp hw
    exact hg w' hw'

theorem release (h : InverseTables f g) (prs : List (κ × ι)) (hf : ∀ w ∈ prs, f w.1 = some w.2) :
    InverseTables (scatter f ((prs.map Prod.fst).map fun v => (v, none)))
      (scatter g ((prs.map Prod.snd).map fun p => (p, none))) := by
  intro v p
  rw [scatter_release_iff, scatter_release_iff, h v p]
  refine and_congr_left fun hgp => not_congr ?_
  have hfv := (h v p).mpr hgp
  constructor
  · intro hv
    obtain ⟨w, hw, rfl⟩ := List.mem_map.mp hv
    have := hf w hw
    rw [hfv] at this
    exact List.mem_map.mpr ⟨w, hw, (Option.some.inj this).symm⟩
  · intro hp
    obtain ⟨w, hw, rfl⟩ := List.mem_map.mp hp
    exact List.mem_map.mpr ⟨w, hw, h.injective (hf w hw) hfv⟩

/-- The keys `srcs` of the second table are exchanged for fresh keys `dsts`. -/
theorem move (h : InverseTables f g) {α : Type*} {ms : List α} {src dst : α → ι} {virt : α → κ}
    (hsrc : (ms.map src).Nodup) (hdst : (ms.map dst).Nodup)
    (hbound : ∀ m ∈ ms, g (src m) = some (virt m)) (hfresh : ∀ m ∈ ms, g (dst m) = none) :
    InverseTables (scatter f (ms.map fun m => (virt m, some (dst m))))
      (scatter (scatter g ((ms.map src).map fun p => (p, none)))
        (ms.map fun m => (dst m, some (virt m)))) := by
  have hvirt : (ms.map virt).Nodup := by
    refine (nodup_map_iff_inj_on (List.Nodup.of_map _ hsrc)).mpr ?_
    intro m hm m' hm' heq
    have hv := (h _ _).mpr (hbound m hm)
    rw [heq, (h _ _).mpr (hbound m' hm')] at hv
    exact inj_on_of_nodup_map hsrc hm hm' (Option.some.inj hv).symm
  -- clear the pairs of the sources, then bind those of the destinations
  have hrel := h.release (ms.map fun m => (virt m, src m)) (by
    intro w hw
    obtain ⟨m, hm, rfl⟩ := List.mem_map.mp hw
    exact (h _ _).mpr (hbound m hm))
  have hbind := hrel.bind (ms.map fun m => (virt m, dst m))
    (by simpa [comp_def] using hvirt) (by simpa [comp_def] using hdst)
    (by
      intro w hw
      obtain ⟨m, hm, rfl⟩ := List.mem_map.mp hw
      rw [scatter_const, if_pos]
      simpa [comp_def] using ⟨m, hm, rfl⟩)
    (by
      intro w hw
      obtain ⟨m, hm, rfl⟩ := List.mem_map.mp hw
      rw [scatter_const]
      split
      · rfl
      · exact hfresh m hm)
  simp only [List.map_map, comp_def] at hbind ⊢
  intro v p
  rw [← hbind v p]
  -- what the first table had for the moved keys is overwritten
  rw [scatter_congr]
  intro hv
  rw [scatter_of_not_mem]
  simpa [comp_def] using hv

end InverseTables

end Sglang.Lib
