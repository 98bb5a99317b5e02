import Sglang.Eplb.DeepseekReplicas
import Mathlib.Algebra.BigOperators.Group.Finset.Sigma
import Mathlib.Algebra.Order.BigOperators.Group.Finset
import Mathlib.Algebra.Order.Field.Basic

/-!
# Replicas Balance the Load

Giving one replica after the other to the expert with the largest load per replica is the best that
replicas can do.

- `Loads.Exact`: the loads are those of an ordered field, and the maximum is one,
- `Fair`: taking one replica from an expert would leave it with the largest load,
- `replicateExperts_minimal`: no placement has a smaller largest load per replica.
-/

namespace Sglang.Eplb

open Finset

variable {K : Type} [Field K] [LinearOrder K] [IsStrictOrderedRing K]

/-- Loads are divided and compared without rounding. -/
structure Loads.Exact (L : Loads K) : Prop where
  divide : ∀ w n, L.divide w n = w / n
  argmax : ∀ ws, ∀ w ∈ ws, ∃ m, ws[L.argmax ws]? = some m ∧ w ≤ m

variable {L : Loads K} {numLog numPhy : Nat} {weight : Nat → K}

theorem Ranked.sum_logcnt {r : Replicas} (h : Ranked numLog numPhy r) : ∑ e ∈ range numLog,
    r.logcnt e = numPhy := by
  rw [← card_range numPhy, ← sum_congr rfl fun e _ => card_range (r.logcnt e), ← card_sigma]
  refine (card_bij (fun p _ => ⟨r.phy2log p, r.phyrank p⟩) (fun p hp => ?_) (fun p hp q hq heq =>
    ?_) fun x hx => ?_).symm
  · have hp := mem_range.mp hp
    exact mem_sigma.mpr ⟨mem_range.mpr (h.expert_lt p hp), mem_range.mpr (h.rank_lt p hp)⟩
  · obtain ⟨hexpert, hrank⟩ := Sigma.mk.inj heq
    exact h.apart p (mem_range.mp hp) q (mem_range.mp hq) hexpert (eq_of_heq hrank)
  · obtain ⟨he, hk⟩ := mem_sigma.mp hx
    obtain ⟨p, hp, hexpert, hrank⟩ := h.onto x.1 (mem_range.mp he) x.2 (mem_range.mp hk)
    exact ⟨p, mem_range.mpr hp, Sigma.ext hexpert (heq_of_eq hrank)⟩

/-- An expert with one replica less would have at least the load per replica of any other. -/
structure Fair (numLog : Nat) (weight : Nat → K) (logcnt : Nat → Nat) : Prop where
  pos : ∀ e < numLog, 1 ≤ logcnt e
  fair : ∀ e < numLog, ∀ e' < numLog, 2 ≤ logcnt e' →
    weight e / logcnt e ≤ weight e' / (logcnt e' - 1 : Nat)

theorem Fair.replicateExpert (hL : L.Exact) (hlog : 0 < numLog)
    (hweight : ∀ e < numLog, 0 ≤ weight e) {r : Replicas} (h : Fair numLog weight r.logcnt)
    (i : Nat) : Fair numLog weight (replicateExpert L numLog weight r i).logcnt := by
  set ws := (List.range numLog).map fun e => L.divide (weight e) (r.logcnt e) with hws
  set m := L.argmax ws with hm
  have hlt : m < numLog := by
    have hlt :=
      L.argmax_lt ws
        (List.ne_nil_of_length_pos (by rw [hws, List.length_map, List.length_range]; exact hlog))
    rwa [hws, List.length_map, List.length_range] at hlt
  have hmax : ∀ e < numLog, weight e / r.logcnt e ≤ weight m / r.logcnt m := by
    intro e he
    obtain ⟨v, hv, hle⟩ := hL.argmax ws _ (List.mem_map_of_mem (List.mem_range.mpr he))
    rw [← hm, hws, List.getElem?_map, List.getElem?_range hlt] at hv
    obtain rfl := Option.some.inj hv
    rw [hL.divide] at hle
    exact hle.trans_eq (hL.divide ..)
  have hnew : (Eplb.replicateExpert L numLog weight r i).logcnt =
    Function.update r.logcnt m (r.logcnt m + 1) := rfl
  rw [hnew]
  -- more replicas never have a larger load
  have hless : ∀ e < numLog, weight e / (Function.update r.logcnt m (r.logcnt m + 1) e : Nat) ≤
      weight e / r.logcnt e := by
    intro e he
    have hpos : (0 : K) < r.logcnt e := Nat.cast_pos.mpr (h.pos e he)
    refine div_le_div_of_nonneg_left (hweight e he) hpos (Nat.cast_le.mpr ?_)
    rcases eq_or_ne e m with rfl | hne
    · rw [Function.update_self]
      exact Nat.le_succ _
    · rw [Function.update_of_ne hne]
  refine ⟨fun e he => ?_, fun e he e' he' htwo => (hless e he).trans ?_⟩
  · rcases eq_or_ne e m with rfl | hne
    · rw [Function.update_self]
      exact Nat.le_add_left ..
    · rw [Function.update_of_ne hne]
      exact h.pos e he
  · rcases eq_or_ne e' m with rfl | hne
    · rw [Function.update_self, Nat.add_sub_cancel]
      exact hmax e he
    · rw [Function.update_of_ne hne] at htwo ⊢
      exact h.fair e he e' he' htwo

theorem replicateExperts_fair (hL : L.Exact) (hlog : 0 < numLog)
    (hweight : ∀ e < numLog, 0 ≤ weight e) {r : Replicas}
    (hr : replicateExperts L numLog numPhy weight = some r) : Fair numLog weight r.logcnt := by
  have hloop : ∀ (is : List Nat) (r : Replicas), Fair numLog weight r.logcnt →
      Fair numLog weight (is.foldl (replicateExpert L numLog weight) r).logcnt := by
    intro is
    induction is with
    | nil => exact fun r h => h
    | cons i is ih => exact fun r h => ih _ (h.replicateExpert hL hlog hweight i)
  unfold replicateExperts at hr
  split at hr
  · cases hr
  · obtain rfl := Option.some.inj hr
    exact hloop _ _ ⟨fun _ _ => le_rfl, fun _ _ _ _ htwo => absurd htwo (by simp)⟩

theorem Fair.minimal (hweight : ∀ e < numLog, 0 ≤ weight e) {logcnt other : Nat → Nat}
    (h : Fair numLog weight logcnt) (hpos : ∀ e < numLog, 1 ≤ other e)
    (hsum : ∑ e ∈ range numLog, logcnt e = ∑ e ∈ range numLog, other e)
    {bound : K} (hbound : ∀ e < numLog, weight e / other e ≤ bound) : ∀ e < numLog,
    weight e / logcnt e ≤ bound := by
  intro e he
  by_cases hle : ∀ e' < numLog, logcnt e' ≤ other e'
  · -- of the same sum, they are the same
    have heq :=
      (sum_eq_sum_iff_of_le fun e' he' => hle e' (mem_range.mp he')).mp hsum e (mem_range.mpr he)
    rw [heq]
    exact hbound e he
  · push Not at hle
    obtain ⟨e', he', hgt⟩ := hle
    have hone := hpos e' he'
    refine (h.fair e he e' he' (by omega)).trans (le_trans ?_ (hbound e' he'))
    exact div_le_div_of_nonneg_left (hweight e' he') (Nat.cast_pos.mpr hone)
      (Nat.cast_le.mpr (by omega))

/-- `replicate_experts` gives every expert a replica, fills all slots, and keeps every bound on the
load of a slot that any placement on as many slots keeps. -/
theorem replicateExperts_minimal (hL : L.Exact) (hlog : 0 < numLog) (hle : numLog ≤ numPhy)
    (hweight : ∀ e < numLog, 0 ≤ weight e) : ∃ r, replicateExperts L numLog numPhy weight = some r ∧
      Ranked numLog numPhy r ∧ ∀ r', Ranked numLog numPhy r' → ∀ bound,
        (∀ p < numPhy, weight (r'.phy2log p) / r'.logcnt (r'.phy2log p) ≤ bound) →
          ∀ p < numPhy, weight (r.phy2log p) / r.logcnt (r.phy2log p) ≤ bound := by
  obtain ⟨r, hr, hranked⟩ := replicateExperts_spec L hlog hle weight
  refine ⟨r, hr, hranked, fun r' hranked' bound hbound p hp => ?_⟩
  have hsum := hranked.sum_logcnt.trans hranked'.sum_logcnt.symm
  refine (replicateExperts_fair hL hlog hweight hr).minimal hweight hranked'.logcnt_pos hsum
    (fun e he => ?_) _
    (hranked.expert_lt p hp)
  obtain ⟨q, hq, hexpert, -⟩ := hranked'.onto e he 0 (hranked'.logcnt_pos e he)
  have := hbound q hq
  rwa [hexpert] at this

def ratLoads : Loads ℚ where
  zero := 0
  add := (· + ·)
  lt x y := decide (x < y)
  divide w n := w / n
  sum := List.sum
  sortDescending ws :=
    (List.range ws.length).mergeSort fun i j => decide (ws.getD j 0 ≤ ws.getD i 0)
  sortDescending_perm _ := List.mergeSort_perm _ _
  argmax ws := ws.idxOf (ws.max?.getD 0)
  argmax_lt ws hws := by
    obtain ⟨m, hm⟩ := Option.isSome_iff_exists.mp (List.isSome_max?_of_ne_nil hws)
    rw [hm]
    exact List.idxOf_lt_length_of_mem (List.max?_mem hm)

theorem ratLoads_exact : ratLoads.Exact where
  divide _ _ := rfl
  argmax ws w hw := by
    obtain ⟨m, hm⟩ := Option.isSome_iff_exists.mp (List.isSome_max?_of_mem hw)
    refine ⟨m, ?_, (List.max?_eq_some_iff.mp hm).2 w hw⟩
    show ws[ws.idxOf (ws.max?.getD 0)]? = some m
    rw [hm]
    exact List.getElem?_idxOf (List.max?_mem hm)

/-- Three experts of the loads 6, 1 and 0. -/
def threeLoads (e : Nat) : ℚ := [6, 1, 0].getD e 0

theorem replicateExperts_minimal_three : ∃ r, replicateExperts ratLoads 3 5 threeLoads = some r ∧
    Ranked 3 5 r ∧ ∀ r', Ranked 3 5 r' → ∀ bound,
      (∀ p < 5, threeLoads (r'.phy2log p) / r'.logcnt (r'.phy2log p) ≤ bound) →
        ∀ p < 5, threeLoads (r.phy2log p) / r.logcnt (r.phy2log p) ≤ bound :=
  @replicateExperts_minimal ℚ _ _ _ ratLoads 3 5 threeLoads ratLoads_exact (by decide) (by decide)
    (by decide)

end Sglang.Eplb
