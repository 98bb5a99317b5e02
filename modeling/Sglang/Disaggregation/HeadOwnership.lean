import Mathlib.Tactic
import Sglang.Disaggregation.HeadSlices

/-!
# Which Heads a Slice Carries

The arithmetic of `computeHeadSliceParams`, over all TP sizes of which one divides the other and all
head counts that fit to both.

- `Sizes`: the sizes under which the ranks own whole heads,
- `slice_fits`, `slice_covers`: the slices lie inside both ranks, and fill the decode rank,
- `Fits.head`: a slice carries the heads that the decode rank owns, unless the decode side
  replicates heads that one prefill rank keeps several of,
- `slice_head_wrong`: there it does not,
- `slice_writer`: the decode side computes the slices of its writers.
-/

namespace Sglang.Disaggregation.HeadSlices

open List

/-- Prefill TP size, decode TP size and KV heads. -/
structure Sizes (prefillTp decodeTp heads : Nat) : Prop where
  prefill_pos : 0 < prefillTp
  decode_pos : 0 < decodeTp
  heads_pos : 0 < heads
  tp : prefillTp ∣ decodeTp ∨ decodeTp ∣ prefillTp
  prefill_heads : prefillTp ∣ heads ∨ heads ∣ prefillTp
  decode_heads : decodeTp ∣ heads ∨ heads ∣ decodeTp

/-- The decode ranks replicate heads, and a prefill rank keeps several of them. -/
def Replicated (prefillTp decodeTp heads : Nat) : Prop := prefillTp < heads ∧ heads < decodeTp

instance (prefillTp decodeTp heads : Nat) : Decidable (Replicated prefillTp decodeTp heads) :=
  inferInstanceAs (Decidable (_ ∧ _))

/-! ## Section 1: Factors -/

theorem dvd_of_le {a b : Nat} (ha : 0 < a) (h : a ∣ b ∨ b ∣ a) (hle : a ≤ b) : a ∣ b := by
  rcases h with h | h
  · exact h
  · rw [le_antisymm hle (Nat.le_of_dvd ha h)]

theorem headsPerRank_mul {t q : Nat} (ht : 0 < t) (hq : 0 < q) : headsPerRank (t * q) t = q := by
  rw [headsPerRank, Nat.mul_div_cancel_left q ht]
  omega

theorem headsPerRank_replicated {h p : Nat} (hp : 0 < p) : headsPerRank h (h * p) = 1 := by
  rw [headsPerRank]
  have : h / (h * p) ≤ 1 := by
    rcases Nat.eq_zero_or_pos h with rfl | hh
    · simp
    · calc h / (h * p) ≤ h * p / (h * p) := Nat.div_le_div_right (Nat.le_mul_of_pos_right h hp)
        _ = 1 := Nat.div_self (Nat.mul_pos hh hp)
  omega

theorem ownedHead_mul {t q : Nat} (ht : 0 < t) (hq : 0 < q) (r j : Nat) :
    ownedHead (t * q) t r j = r * q + j := by
  rw [ownedHead, if_pos (Nat.le_mul_of_pos_right t hq), Nat.mul_div_cancel_left q ht]

theorem ownedHead_replicated {h p : Nat} (hh : 0 < h) (hp : 0 < p) (r : Nat) :
    ownedHead h (h * p) r 0 = r / p := by
  rw [ownedHead]
  split
  · next hle =>
    -- one rank for each head
    have : p = 1 := by nlinarith
    subst this
    simp [Nat.div_self hh]
  · rw [Nat.mul_div_cancel_left p hh]

theorem replication_mul {h p : Nat} (hh : 0 < h) (hp : 0 < p) : max 1 (h * p / h) = p := by
  rw [Nat.mul_div_cancel_left p hh]
  omega

theorem replication_le {t h : Nat} (hle : t ≤ h) : max 1 (t / h) = 1 := by
  have : t / h ≤ 1 := by
    rcases Nat.eq_zero_or_pos h with rfl | hh
    · simp
    · calc t / h ≤ h / h := Nat.div_le_div_right hle
        _ = 1 := Nat.div_self hh
  omega

theorem mul_mod_of_lt {w m q : Nat} (d : Nat) (hw : w < m) : (d * m + w) * q % (m * q) = w * q := by
  rcases Nat.eq_zero_or_pos q with rfl | hq
  · simp
  · have hlt : w * q < m * q := Nat.mul_lt_mul_of_pos_right hw hq
    have heq : (d * m + w) * q = w * q + m * q * d := by ring
    rw [heq, Nat.add_mul_mod_self_left, Nat.mod_eq_of_lt hlt]

/-! ## Section 2: The slices -/

variable {H D S d w m q p t : Nat}

theorem lt_mul_of_writer (hd : d < D) (hw : w < m) : d * m + w < D * m := by
  calc d * m + w < d * m + m := by omega
    _ = (d + 1) * m := by ring
    _ ≤ D * m := Nat.mul_le_mul_right m hd

theorem slice_gather_whole (hD : 0 < D) (hm : 1 < m) (hq : 0 < q) (a : Nat) (hw : w < m)
    (ha : a * m + w < D * m) (b : Nat) :
    computeHeadSliceParams (D * m) D (a * m + w) b (D * m * q) = ⟨0, q, w * q⟩ := by
  have hDm : 0 < D * m := Nat.mul_pos hD (by omega)
  have hgt : D * m > D := (Nat.lt_mul_iff_one_lt_right hD).mpr hm
  simp only [computeHeadSliceParams, if_pos hgt, Nat.mod_eq_of_lt ha, headsPerRank_mul hDm hq,
    replication_le (Nat.le_mul_of_pos_right (D * m) hq), Nat.div_one]
  rw [Nat.mul_assoc, headsPerRank_mul hD (Nat.mul_pos (by omega) hq), mul_mod_of_lt a hw]

theorem slice_gather_single (hD : 0 < D) (hm : 1 < q * p) (a : Nat) (hw : w < q * p)
    (ha : a * (q * p) + w < D * (q * p)) (b : Nat) :
    computeHeadSliceParams (D * (q * p)) D (a * (q * p) + w) b (D * q) = ⟨0, 1, w / p⟩ := by
  have hq : 0 < q := Nat.pos_of_mul_pos_right (by omega : 0 < q * p)
  have hp : 0 < p := Nat.pos_of_mul_pos_left (by omega : 0 < q * p)
  have hgt : D * (q * p) > D := (Nat.lt_mul_iff_one_lt_right hD).mpr hm
  have hunique : (a * (q * p) + w) / p = a * q + w / p := by
    rw [← Nat.mul_assoc, Nat.mul_comm (a * q) p, Nat.mul_add_div hp]
  have hlt : w / p < q := Nat.div_lt_of_lt_mul (by rwa [Nat.mul_comm p q])
  simp only [computeHeadSliceParams, if_pos hgt, Nat.mod_eq_of_lt ha]
  rw [← Nat.mul_assoc, headsPerRank_replicated hp, replication_mul (Nat.mul_pos hD hq) hp,
    headsPerRank_mul hD hq, hunique, Nat.mul_one, Nat.add_comm, Nat.add_mul_mod_self_right,
    Nat.mod_eq_of_lt hlt]

theorem slice_gather_replicated (hH : 0 < H) (ht : 0 < t) (hm : 1 < m) (a b : Nat) :
    computeHeadSliceParams (H * t * m) (H * t) a b H = ⟨0, 1, 0⟩ := by
  have hgt : H * t * m > H * t := (Nat.lt_mul_iff_one_lt_right (Nat.mul_pos hH ht)).mpr hm
  simp only [computeHeadSliceParams, if_pos hgt, headsPerRank_replicated ht, Nat.mod_one]
  rw [Nat.mul_assoc, headsPerRank_replicated (Nat.mul_pos ht (by omega))]

theorem slice_spread_whole (hS : 0 < S) (hm : 0 < m) (hq : 0 < q) (a r : Nat) (hw : w < m)
    (hd : r * m + w < S * m) :
    computeHeadSliceParams S (S * m) a (r * m + w) (S * m * q) = ⟨w * q, q, 0⟩ := by
  have hle : ¬ S > S * m := Nat.not_lt.mpr (Nat.le_mul_of_pos_right S hm)
  simp only [computeHeadSliceParams, if_neg hle, Nat.mod_eq_of_lt hd,
    headsPerRank_mul (Nat.mul_pos hS hm) hq]
  rw [Nat.mul_assoc, headsPerRank_mul hS (Nat.mul_pos hm hq), mul_mod_of_lt r hw]

theorem slice_spread_replicated (ht : 0 < t) (hle : S ≤ H * t) (a : Nat) (hd : d < H * t) :
    computeHeadSliceParams S (H * t) a d H = ⟨d % headsPerRank H S, 1, 0⟩ := by
  simp only [computeHeadSliceParams, if_neg (Nat.not_lt.mpr hle), headsPerRank_replicated ht,
    Nat.mod_eq_of_lt hd, Nat.mul_one]

/-! ## Section 3: All sizes -/

/-- The ways in which the sizes divide each other. -/
inductive Shape : Nat → Nat → Nat → Prop
  | gatherWhole {D m q : Nat} : 0 < D → 1 < m → 0 < q → Shape (D * m) D (D * m * q)
  | gatherSingle {D q p : Nat} : 0 < D → 1 < q * p → Shape (D * (q * p)) D (D * q)
  | gatherReplicated {H t m : Nat} : 0 < H → 0 < t → 1 < m → Shape (H * t * m) (H * t) H
  | spreadWhole {S m q : Nat} : 0 < S → 0 < m → 0 < q → Shape S (S * m) (S * m * q)
  | spreadSingle {H p m : Nat} : 0 < H → 0 < p → 0 < m → Shape (H * p) (H * p * m) H
  | spreadReplicated {S q t : Nat} : 0 < S → 1 < q → 1 < t → Shape S (S * q * t) (S * q)

theorem Sizes.shape (h : Sizes S D H) : Shape S D H := by
  have hS := h.prefill_pos
  have hD := h.decode_pos
  have hH := h.heads_pos
  rcases Nat.lt_or_ge D S with hlt | hge
  · obtain ⟨m, rfl⟩ := dvd_of_le hD h.tp.symm hlt.le
    have hm : 1 < m := (Nat.lt_mul_iff_one_lt_right hD).mp hlt
    rcases Nat.lt_or_ge H (D * m) with hHS | hHS
    · obtain ⟨p, hp⟩ := dvd_of_le hH h.prefill_heads.symm hHS.le
      rcases Nat.lt_or_ge H D with hHD | hHD
      · obtain ⟨t, rfl⟩ := dvd_of_le hH h.decode_heads.symm hHD.le
        exact Shape.gatherReplicated hH (Nat.pos_of_mul_pos_left hD) hm
      · obtain ⟨q, rfl⟩ := dvd_of_le hD h.decode_heads hHD
        rw [Nat.mul_assoc] at hp
        obtain rfl := Nat.eq_of_mul_eq_mul_left hD hp
        exact Shape.gatherSingle hD hm
    · obtain ⟨q, rfl⟩ := dvd_of_le hS h.prefill_heads hHS
      exact Shape.gatherWhole hD hm (Nat.pos_of_mul_pos_left hH)
  · obtain ⟨m, rfl⟩ := dvd_of_le hS h.tp hge
    have hm : 0 < m := Nat.pos_of_mul_pos_left hD
    rcases Nat.lt_or_ge H (S * m) with hHD | hHD
    · rcases Nat.lt_or_ge S H with hSH | hSH
      · obtain ⟨q, rfl⟩ := dvd_of_le hS h.prefill_heads hSH.le
        obtain ⟨t, ht⟩ := dvd_of_le hH h.decode_heads.symm hHD.le
        rw [ht] at hHD ⊢
        exact Shape.spreadReplicated hS ((Nat.lt_mul_iff_one_lt_right hS).mp hSH)
          ((Nat.lt_mul_iff_one_lt_right hH).mp hHD)
      · obtain ⟨p, rfl⟩ := dvd_of_le hH h.prefill_heads.symm hSH
        exact Shape.spreadSingle hH (Nat.pos_of_mul_pos_left hS) hm
    · obtain ⟨q, rfl⟩ := dvd_of_le hD h.decode_heads hHD
      exact Shape.spreadWhole hS hm (Nat.pos_of_mul_pos_left hH)

/-- What is to be shown of the slice from prefill rank `r` to decode rank `d`. -/
structure Fits (S D H d r : Nat) : Prop where
  src : (computeHeadSliceParams S D r d H).srcHeadStart +
    (computeHeadSliceParams S D r d H).numHeadsToSend ≤ headsPerRank H S
  dst : (computeHeadSliceParams S D r d H).dstHeadStart +
    (computeHeadSliceParams S D r d H).numHeadsToSend ≤ headsPerRank H D
  head : ¬ Replicated S D H → ∀ k < (computeHeadSliceParams S D r d H).numHeadsToSend,
    ownedHead H S r ((computeHeadSliceParams S D r d H).srcHeadStart + k) =
      ownedHead H D d ((computeHeadSliceParams S D r d H).dstHeadStart + k)

theorem resolveRankMapping_gather {D m d : Nat} (hD : 0 < D) (hm : 1 < m) (hd : d < D) :
    resolveRankMapping D (D * m) d = List.range' (d * m) m := by
  have hlt : D < D * m := (Nat.lt_mul_iff_one_lt_right hD).mpr hm
  rw [resolveRankMapping, if_neg (by omega), if_neg (by omega), Nat.mod_eq_of_lt hd,
    Nat.mul_div_cancel_left m hD]
  congr 1
  rw [Nat.add_mul, Nat.one_mul]
  omega

theorem resolveRankMapping_spread {S m d : Nat} (hS : 0 < S) (hm : 0 < m) (hd : d < S * m) :
    resolveRankMapping (S * m) S d = [d / m] := by
  rw [resolveRankMapping]
  split
  · next heq =>
    have : m = 1 := by nlinarith
    subst this
    rw [Nat.mod_eq_of_lt hd, Nat.div_one]
  · next hne =>
    have hlt : S * m > S := by
      have := Nat.le_mul_of_pos_right S hm
      omega
    rw [if_pos hlt, Nat.mod_eq_of_lt hd, Nat.mul_div_cancel_left m hS]

/-- The slices lie inside both ranks, and carry the heads that the decode rank owns. -/
theorem slice_fits (h : Sizes S D H) (hd : d < D) {r : Nat} (hr : r ∈ resolveRankMapping D S d) :
    Fits S D H d r := by
  -- one case for each way the two TP sizes and the heads divide each other
  cases h.shape with
  | @gatherWhole _ m q hD hm hq =>
    rw [resolveRankMapping_gather hD hm hd, mem_range'_1] at hr
    obtain ⟨w, rfl⟩ := Nat.exists_eq_add_of_le hr.1
    have hw : w < m := by omega
    have hslice := slice_gather_whole hD hm hq d hw (lt_mul_of_writer hd hw) d
    have hDm : 0 < D * m := Nat.mul_pos hD (by omega)
    have hle : w * q + q ≤ m * q := by
      calc w * q + q = (w + 1) * q := by ring
        _ ≤ m * q := Nat.mul_le_mul_right q hw
    refine ⟨?_, ?_, fun _ k _ => ?_⟩
    · rw [hslice, headsPerRank_mul hDm hq]
      exact (Nat.zero_add q).le
    · rw [hslice, Nat.mul_assoc, headsPerRank_mul hD (Nat.mul_pos (by omega) hq)]
      exact hle
    · rw [hslice, ownedHead_mul hDm hq, Nat.mul_assoc D,
        ownedHead_mul hD (Nat.mul_pos (by omega) hq)]
      ring
  | @gatherSingle _ q p hD hm =>
    rw [resolveRankMapping_gather hD hm hd, mem_range'_1] at hr
    obtain ⟨w, rfl⟩ := Nat.exists_eq_add_of_le hr.1
    have hw : w < q * p := by omega
    have hslice := slice_gather_single hD hm d hw (lt_mul_of_writer hd hw) d
    have hq : 0 < q := Nat.pos_of_mul_pos_right (by omega : 0 < q * p)
    have hp : 0 < p := Nat.pos_of_mul_pos_left (by omega : 0 < q * p)
    have hlt : w / p < q := Nat.div_lt_of_lt_mul (by rwa [Nat.mul_comm p q])
    refine ⟨?_, ?_, fun _ k hk => ?_⟩
    · rw [hslice, ← Nat.mul_assoc, headsPerRank_replicated hp]
      exact le_refl 1
    · rw [hslice, headsPerRank_mul hD hq]
      exact hlt
    · rw [hslice] at hk ⊢
      obtain rfl : k = 0 := by
        have : k < 1 := hk
        omega
      rw [← Nat.mul_assoc, ownedHead_replicated (Nat.mul_pos hD hq) hp, ownedHead_mul hD hq,
        ← Nat.mul_assoc, Nat.mul_comm (d * q) p, Nat.mul_add_div hp]
      rfl
  | @gatherReplicated _ t m hH ht hm =>
    rw [resolveRankMapping_gather (Nat.mul_pos hH ht) hm hd, mem_range'_1] at hr
    have hslice := slice_gather_replicated (t := t) hH ht hm r d
    refine ⟨?_, ?_, fun _ k hk => ?_⟩
    · rw [hslice, Nat.mul_assoc, headsPerRank_replicated (Nat.mul_pos ht (by omega))]
      exact le_refl 1
    · rw [hslice, headsPerRank_replicated ht]
      exact le_refl 1
    · rw [hslice] at hk ⊢
      obtain rfl : k = 0 := by
        have : k < 1 := hk
        omega
      -- the writers of decode rank `d` are the `m` ranks that share its head
      have hrank : r / m = d := by
        rw [Nat.div_eq_iff (by omega : 0 < m)]
        constructor
        · exact hr.1
        · have := hr.2
          omega
      rw [Nat.mul_assoc, ownedHead_replicated hH (Nat.mul_pos ht (by omega)),
        ownedHead_replicated hH ht, Nat.mul_comm t m, ← Nat.div_div_eq_div_mul, hrank]
  | @spreadWhole _ m q hS hm hq =>
    rw [resolveRankMapping_spread hS hm hd, mem_singleton] at hr
    have hw : d % m < m := Nat.mod_lt d hm
    have hdm : r * m + d % m = d := by
      rw [hr, Nat.mul_comm]
      exact Nat.div_add_mod d m
    have hslice := slice_spread_whole hS hm hq r r hw (by rw [hdm]; exact hd)
    rw [hdm] at hslice
    have hle : d % m * q + q ≤ m * q := by
      calc d % m * q + q = (d % m + 1) * q := by ring
        _ ≤ m * q := Nat.mul_le_mul_right q hw
    refine ⟨?_, ?_, fun _ k _ => ?_⟩
    · rw [hslice, Nat.mul_assoc, headsPerRank_mul hS (Nat.mul_pos hm hq)]
      exact hle
    · rw [hslice, headsPerRank_mul (Nat.mul_pos hS hm) hq]
      exact (Nat.zero_add q).le
    · rw [hslice, ownedHead_mul (Nat.mul_pos hS hm) hq, Nat.mul_assoc S,
        ownedHead_mul hS (Nat.mul_pos hm hq)]
      calc r * (m * q) + (d % m * q + k) = (r * m + d % m) * q + k := by ring
        _ = d * q + (0 + k) := by rw [hdm, Nat.zero_add]
  | @spreadSingle _ p m hH hp hm =>
    rw [resolveRankMapping_spread (Nat.mul_pos hH hp) hm hd, mem_singleton] at hr
    have hslice : computeHeadSliceParams (H * p) (H * p * m) r d H = ⟨0, 1, 0⟩ := by
      rw [Nat.mul_assoc] at hd ⊢
      rw [slice_spread_replicated (Nat.mul_pos hp hm) _ r hd, headsPerRank_replicated hp,
        Nat.mod_one]
      rw [← Nat.mul_assoc]
      exact Nat.le_mul_of_pos_right _ hm
    refine ⟨?_, ?_, fun _ k hk => ?_⟩
    · rw [hslice, headsPerRank_replicated hp]
      exact le_refl 1
    · rw [hslice, Nat.mul_assoc, headsPerRank_replicated (Nat.mul_pos hp hm)]
      exact le_refl 1
    · rw [hslice] at hk ⊢
      obtain rfl : k = 0 := by
        have : k < 1 := hk
        omega
      rw [ownedHead_replicated hH hp, Nat.mul_assoc, ownedHead_replicated hH (Nat.mul_pos hp hm),
        hr, Nat.div_div_eq_div_mul, Nat.mul_comm m p]
  | @spreadReplicated _ q t hS hq ht =>
    have hslice := slice_spread_replicated (S := S) (by omega : 0 < t)
      (by rw [Nat.mul_assoc]; exact Nat.le_mul_of_pos_right S (Nat.mul_pos (by omega) (by omega)))
      r hd
    have hmod : d % q < q := Nat.mod_lt d (by omega)
    refine ⟨?_, ?_, fun hnot => absurd ⟨?_, ?_⟩ hnot⟩
    · rw [hslice, headsPerRank_mul hS (by omega)]
      exact hmod
    · rw [hslice, headsPerRank_replicated (by omega)]
      exact le_refl 1
    · exact (Nat.lt_mul_iff_one_lt_right hS).mpr hq
    · exact (Nat.lt_mul_iff_one_lt_right (Nat.mul_pos hS (by omega))).mpr ht

theorem slice_covers (h : Sizes S D H) (hd : d < D) {j : Nat} (hj : j < headsPerRank H D) :
    ∃ r ∈ resolveRankMapping D S d, ∃ k < (computeHeadSliceParams S D r d H).numHeadsToSend,
      (computeHeadSliceParams S D r d H).dstHeadStart + k = j := by
  -- the rank that sends head `j`, and the head's place in what it sends
  cases h.shape with
  | @gatherWhole _ m q hD hm hq =>
    rw [Nat.mul_assoc, headsPerRank_mul hD (Nat.mul_pos (by omega) hq)] at hj
    have hw : j / q < m := Nat.div_lt_of_lt_mul (by rwa [Nat.mul_comm q m])
    refine ⟨d * m + j / q, ?_, j % q, ?_, ?_⟩
    · rw [resolveRankMapping_gather hD hm hd, mem_range'_1]
      exact ⟨Nat.le_add_right _ _, Nat.add_lt_add_left hw _⟩
    · rw [slice_gather_whole hD hm hq d hw (lt_mul_of_writer hd hw)]
      exact Nat.mod_lt j hq
    · rw [slice_gather_whole hD hm hq d hw (lt_mul_of_writer hd hw), Nat.mul_comm]
      exact Nat.div_add_mod j q
  | @gatherSingle _ q p hD hm =>
    have hq : 0 < q := Nat.pos_of_mul_pos_right (by omega : 0 < q * p)
    have hp : 0 < p := Nat.pos_of_mul_pos_left (by omega : 0 < q * p)
    rw [headsPerRank_mul hD hq] at hj
    have hw : j * p < q * p := Nat.mul_lt_mul_of_pos_right hj hp
    refine ⟨d * (q * p) + j * p, ?_, 0, ?_, ?_⟩
    · rw [resolveRankMapping_gather hD hm hd, mem_range'_1]
      omega
    · rw [slice_gather_single hD hm d hw (lt_mul_of_writer hd hw)]
      exact Nat.one_pos
    · rw [slice_gather_single hD hm d hw (lt_mul_of_writer hd hw)]
      exact Nat.mul_div_cancel j hp
  | @gatherReplicated _ t m hH ht hm =>
    rw [headsPerRank_replicated ht] at hj
    refine ⟨d * m, ?_, 0, ?_, ?_⟩
    · rw [resolveRankMapping_gather (Nat.mul_pos hH ht) hm hd, mem_range'_1]
      omega
    · rw [slice_gather_replicated hH ht hm]
      exact Nat.one_pos
    · rw [slice_gather_replicated hH ht hm]
      show 0 + 0 = j
      omega
  | @spreadWhole _ m q hS hm hq =>
    rw [headsPerRank_mul (Nat.mul_pos hS hm) hq] at hj
    have hdm : d / m * m + d % m = d := by
      rw [Nat.mul_comm]
      exact Nat.div_add_mod d m
    have hslice :=
      slice_spread_whole hS hm hq (d / m) (d / m) (Nat.mod_lt d hm) (by rw [hdm]; exact hd)
    rw [hdm] at hslice
    refine ⟨d / m, ?_, j, ?_, ?_⟩
    · rw [resolveRankMapping_spread hS hm hd, mem_singleton]
    · rw [hslice]
      exact hj
    · rw [hslice, Nat.zero_add]
  | @spreadSingle _ p m hH hp hm =>
    rw [Nat.mul_assoc, headsPerRank_replicated (Nat.mul_pos hp hm)] at hj
    have hle : H * p ≤ H * (p * m) := by
      rw [← Nat.mul_assoc]
      exact Nat.le_mul_of_pos_right _ hm
    have hslice :=
      slice_spread_replicated (Nat.mul_pos hp hm) hle (d / m) (by rwa [← Nat.mul_assoc])
    rw [← Nat.mul_assoc] at hslice
    refine ⟨d / m, ?_, 0, ?_, ?_⟩
    · rw [resolveRankMapping_spread (Nat.mul_pos hH hp) hm hd, mem_singleton]
    · rw [hslice]
      exact Nat.one_pos
    · rw [hslice]
      show 0 + 0 = j
      omega
  | @spreadReplicated _ q t hS hq ht =>
    rw [headsPerRank_replicated (by omega)] at hj
    have hslice := slice_spread_replicated (S := S) (by omega : 0 < t)
      (by rw [Nat.mul_assoc]; exact Nat.le_mul_of_pos_right S (Nat.mul_pos (by omega) (by omega)))
      (d / (q * t)) hd
    refine ⟨d / (q * t), ?_, 0, ?_, ?_⟩
    · rw [Nat.mul_assoc] at hd ⊢
      rw [resolveRankMapping_spread hS (Nat.mul_pos (by omega) (by omega)) hd, mem_singleton]
    · rw [hslice]
      exact Nat.one_pos
    · rw [hslice]
      show 0 + 0 = j
      omega

/-- Where the decode ranks replicate heads that one prefill rank keeps several of, rank 1 is sent a
head that it does not own. -/
theorem slice_head_wrong (h : Sizes S D H) (hrep : Replicated S D H) :
    1 < D ∧ resolveRankMapping D S 1 = [0] ∧ computeHeadSliceParams S D 0 1 H = ⟨1, 1, 0⟩ ∧
      headsPerRank H D = 1 ∧ 1 < headsPerRank H S ∧
      ownedHead H S 0 1 = 1 ∧ ownedHead H D 1 0 = 0 := by
  have hS := h.prefill_pos
  have hH := h.heads_pos
  obtain ⟨q, rfl⟩ := dvd_of_le hS h.prefill_heads hrep.1.le
  obtain ⟨t, rfl⟩ := dvd_of_le hH h.decode_heads.symm hrep.2.le
  have hq : 1 < q := (Nat.lt_mul_iff_one_lt_right hS).mp hrep.1
  have ht : 1 < t := (Nat.lt_mul_iff_one_lt_right hH).mp hrep.2
  have hqt : 1 < q * t := by nlinarith
  have hD : 1 < S * q * t := by nlinarith
  refine ⟨hD, ?_, ?_, ?_, ?_, ?_, ?_⟩
  · rw [Nat.mul_assoc] at hD ⊢
    rw [resolveRankMapping_spread hS (by omega) hD, Nat.div_eq_of_lt hqt]
  · rw [slice_spread_replicated (by omega) _ 0 hD, headsPerRank_mul hS (by omega),
      Nat.mod_eq_of_lt hq]
    rw [Nat.mul_assoc]
    exact Nat.le_mul_of_pos_right S (by omega)
  · exact headsPerRank_replicated (by omega)
  · rwa [headsPerRank_mul hS (by omega)]
  · rw [ownedHead_mul hS (by omega), Nat.zero_mul]
  · rw [ownedHead_replicated hH (by omega), Nat.div_eq_of_lt ht]

theorem headsPerRank_pos (H T : Nat) : 0 < headsPerRank H T :=
    Nat.lt_of_lt_of_le Nat.one_pos (Nat.le_max_left _ _)

theorem numWriters_gather (hD : 0 < D) (hm : 1 < m) : numWriters (D * m) D = m := by
  rw [numWriters, if_pos ((Nat.lt_mul_iff_one_lt_right hD).mpr hm), Nat.max_eq_right hD,
    Nat.mul_div_cancel_left m hD]

theorem numWriters_spread (hle : S ≤ D) : numWriters S D = 1 := by
    rw [numWriters, if_neg (Nat.not_lt.mpr hle)]

/-- The ranks that send to one decode rank are its writers, named by their remainder. -/
theorem mem_resolveRankMapping (h : Sizes S D H) (hd : d < D) : 0 < numWriters S D ∧
    (∀ r ∈ resolveRankMapping D S d, r < S) ∧
    (∀ r ∈ resolveRankMapping D S d, ∀ r' ∈ resolveRankMapping D S d,
      r % numWriters S D = r' % numWriters S D → r = r') ∧
    ∀ w < numWriters S D, ∃ r ∈ resolveRankMapping D S d, r % numWriters S D = w := by
  rcases Nat.lt_or_ge D S with hlt | hge
  · obtain ⟨m, rfl⟩ := dvd_of_le h.decode_pos h.tp.symm hlt.le
    have hm : 1 < m := (Nat.lt_mul_iff_one_lt_right h.decode_pos).mp hlt
    have hwriter {w : Nat} (hw : w < m) : (d * m + w) % m = w := by
      rw [Nat.mul_add_mod', Nat.mod_eq_of_lt hw]
    rw [numWriters_gather h.decode_pos hm, resolveRankMapping_gather h.decode_pos hm hd]
    simp only [mem_range'_1]
    refine ⟨by omega, ?_, ?_, ?_⟩
    · intro r hr
      obtain ⟨w, rfl⟩ := Nat.exists_eq_add_of_le hr.1
      exact lt_mul_of_writer hd (by omega)
    · intro r hr r' hr' heq
      obtain ⟨w, rfl⟩ := Nat.exists_eq_add_of_le hr.1
      obtain ⟨w', rfl⟩ := Nat.exists_eq_add_of_le hr'.1
      rw [hwriter (by omega), hwriter (by omega)] at heq
      rw [heq]
    · intro w hw
      exact ⟨d * m + w, by omega, hwriter hw⟩
  · obtain ⟨m, rfl⟩ := dvd_of_le h.prefill_pos h.tp hge
    have hm : 0 < m := Nat.pos_of_mul_pos_left h.decode_pos
    rw [numWriters_spread hge, resolveRankMapping_spread h.prefill_pos hm hd]
    simp only [mem_singleton, forall_eq, Nat.mod_one]
    refine ⟨Nat.one_pos, ?_, fun _ => trivial, ?_⟩
    · exact Nat.div_lt_of_lt_mul (by rwa [Nat.mul_comm])
    · intro w hw
      exact ⟨d / m, rfl, by omega⟩

/-- The decode side of the staged path names the writers by their index, and counts the heads of the
decode ranks. -/
theorem slice_writer (h : Sizes S D H) (hd : d < D) {r : Nat} (hr : r ∈ resolveRankMapping D S d) :
    (computeHeadSliceParams S D (r % numWriters S D) d (headsPerRank H D * D)).numHeadsToSend =
        (computeHeadSliceParams S D r d H).numHeadsToSend ∧
      (computeHeadSliceParams S D (r % numWriters S D) d (headsPerRank H D * D)).dstHeadStart =
        (computeHeadSliceParams S D r d H).dstHeadStart := by
  have hD := h.decode_pos
  rcases Nat.lt_or_ge D S with hlt | hge
  · cases h.shape with
    | @gatherWhole _ m q hD hm hq =>
      rw [resolveRankMapping_gather hD hm hd, mem_range'_1] at hr
      obtain ⟨w, rfl⟩ := Nat.exists_eq_add_of_le hr.1
      have hw : w < m := by omega
      have hheads : headsPerRank (D * m * q) D * D = D * m * q := by
        rw [Nat.mul_assoc, headsPerRank_mul hD (Nat.mul_pos (by omega) hq), Nat.mul_comm]
      have hwriter := slice_gather_whole hD hm hq 0 hw (lt_mul_of_writer hD hw) d
      rw [Nat.zero_mul, Nat.zero_add] at hwriter
      rw [hheads, numWriters_gather hD hm, Nat.mul_add_mod', Nat.mod_eq_of_lt hw, hwriter,
        slice_gather_whole hD hm hq d hw (lt_mul_of_writer hd hw)]
      exact ⟨rfl, rfl⟩
    | @gatherSingle _ q p hD hm =>
      rw [resolveRankMapping_gather hD hm hd, mem_range'_1] at hr
      obtain ⟨w, rfl⟩ := Nat.exists_eq_add_of_le hr.1
      have hw : w < q * p := by omega
      have hq : 0 < q := Nat.pos_of_mul_pos_right (by omega : 0 < q * p)
      have hheads : headsPerRank (D * q) D * D = D * q := by
        rw [headsPerRank_mul hD hq, Nat.mul_comm]
      have hwriter := slice_gather_single hD hm 0 hw (lt_mul_of_writer hD hw) d
      rw [Nat.zero_mul, Nat.zero_add] at hwriter
      rw [hheads, numWriters_gather hD hm, Nat.mul_add_mod', Nat.mod_eq_of_lt hw, hwriter,
        slice_gather_single hD hm d hw (lt_mul_of_writer hd hw)]
      exact ⟨rfl, rfl⟩
    | @gatherReplicated _ t m hH ht hm =>
      -- the decode side takes every decode rank for a head of its own
      have hHt : 0 < H * t := Nat.mul_pos hH ht
      have hw : r % m < m := Nat.mod_lt r (by omega)
      have hwriter := slice_gather_single (q := 1) (p := m) hHt (by omega) 0 (w := r % m) (by omega)
        (by rw [Nat.zero_mul, Nat.zero_add, Nat.one_mul]; nlinarith) d
      rw [Nat.zero_mul, Nat.zero_add, Nat.one_mul, Nat.mul_one, Nat.div_eq_of_lt hw] at hwriter
      rw [headsPerRank_replicated ht, Nat.one_mul, numWriters_gather hHt hm, hwriter,
        slice_gather_replicated hH ht hm]
      exact ⟨rfl, rfl⟩
    | spreadWhole hS hm hq => exact absurd hlt (Nat.not_lt.mpr (Nat.le_mul_of_pos_right _ hm))
    | spreadSingle hH hp hm => exact absurd hlt (Nat.not_lt.mpr (Nat.le_mul_of_pos_right _ hm))
    | @spreadReplicated _ q t hS hq ht =>
      rw [Nat.mul_assoc] at hlt
      exact absurd hlt
        (Nat.not_lt.mpr (Nat.le_mul_of_pos_right _ (Nat.mul_pos (by omega) (by omega))))
  · -- one writer, which fills the decode rank
    have hheads : headsPerRank (headsPerRank H D * D) D = headsPerRank H D := by
      rw [Nat.mul_comm, headsPerRank_mul hD (headsPerRank_pos H D)]
    simp only [computeHeadSliceParams, if_neg (Nat.not_lt.mpr hge), hheads, and_self]

end Sglang.Disaggregation.HeadSlices
