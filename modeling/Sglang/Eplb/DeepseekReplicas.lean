import Mathlib.Algebra.BigOperators.Intervals
import Sglang.Eplb.Deepseek
import Sglang.Lib.Gather

/-!
# Placements of Replicas

What the functions of `eplb_algorithms/deepseek.py` guarantee whatever the loads are.

- `balancedPacking_spec`: each pack gets its number of items, with the ranks from zero on,
- `replicateExperts_spec`: each slot is one replica of one expert (`Ranked`),
- `rebalanceExpertsHierarchical_spec`: the same of the placement over groups, nodes and GPUs.
-/

namespace Sglang.Eplb

open List Function
open Set Lib

variable {W : Type} {L : Loads W}

/-! ## Section 1: Packing -/

theorem minBy_mem {lt : W → W → Bool} {key : Nat → W} {js : List Nat} {x : Nat}
    (h : minBy lt key js = some x) : x ∈ js := by
  cases js with
  | nil => cases h
  | cons j js =>
    obtain rfl := Option.some.inj h
    -- the smallest one so far is the first or one of those seen
    suffices hmem : ∀ (seen : List Nat) (best : Nat), best ∈ seen →
        js.foldl (fun best x => if lt (key x) (key best) then x else best) best ∈ seen ++ js from
      hmem [j] j (mem_singleton_self j)
    clear h
    induction js with
    | nil => exact fun seen best hb => mem_append_left _ hb
    | cons y js ih =>
      intro seen best hb
      have hnext : (if lt (key y) (key best) then y else best) ∈ seen ++ [y] := by
        split
        · simp
        · exact mem_append_left _ hb
      have hrest := ih (seen ++ [y]) _ hnext
      rwa [append_assoc] at hrest

theorem minBy_isSome (lt : W → W → Bool) (key : Nat → W) {js : List Nat} (h : js ≠ []) :
    ∃ x, minBy lt key js = some x := by
  cases js with
  | nil => exact absurd rfl h
  | cons j js => exact ⟨_, rfl⟩

/-- The loop of `balanced_packing` after the items in `placed`. -/
structure PackInv (m size : Nat) (placed : List Nat) (st : PackState W) : Prop where
  inside : ∀ g ∈ placed, ∃ p r : Nat, st.packIndex g = p ∧ st.rankInPack g = r ∧ p < m ∧
    r < st.packItems p
  items_le : ∀ p, p < m → st.packItems p ≤ size
  apart : ∀ g ∈ placed, ∀ g' ∈ placed, st.packIndex g = st.packIndex g' →
    st.rankInPack g = st.rankInPack g' → g = g'
  count : ∑ p ∈ Finset.range m, st.packItems p = placed.length

section

variable {m size : Nat} {placed : List Nat} {st : PackState W} (h : PackInv m size placed st)
  (hlen : placed.length < m * size)
include h hlen

theorem PackInv.exists_room :
    ∃ j, j < m ∧ st.packItems j < size := by
  by_contra hno
  have hfull : ∀ j, j < m → size ≤ st.packItems j :=
    fun j hj => not_lt.mp fun hlt => hno ⟨j, hj, hlt⟩
  have hsum : ∑ _p ∈ Finset.range m, size ≤ ∑ p ∈ Finset.range m, st.packItems p :=
    Finset.sum_le_sum fun p hp => hfull p (Finset.mem_range.mp hp)
  rw [Finset.sum_const, Finset.card_range, smul_eq_mul, h.count] at hsum
  omega

theorem PackInv.step (weight : Nat → W) {g : Nat}
    (hg : g ∉ placed) :
    ∃ st', packItem L m size weight st g = some st' ∧ PackInv m size (g :: placed) st' := by
  -- some pack has room, as fewer items are placed than fit
  obtain ⟨j, hj, hroom⟩ := h.exists_room hlen
  have hne : ((List.range m).filter fun j => st.packItems j < size) ≠ [] :=
    ne_nil_of_mem (mem_filter.mpr ⟨mem_range.mpr hj, by simpa using hroom⟩)
  obtain ⟨pack, hpack⟩ := minBy_isSome L.lt st.packWeights hne
  obtain ⟨hm, hlt⟩ := mem_filter.mp (minBy_mem hpack)
  have hm : pack < m := mem_range.mp hm
  have hlt : st.packItems pack < size := of_decide_eq_true hlt
  refine ⟨_, by rw [packItem, hpack]; rfl, ?_⟩
  have hold : ∀ {β : Type} (t : Nat → β) (b : β), ∀ g' ∈ placed, update t g b g' = t g' :=
    fun t b g' hg' => update_of_ne (ne_of_mem_of_not_mem hg' hg) _ _
  constructor
  · intro g' hg'
    rcases mem_cons.mp hg' with rfl | hin
    · exact ⟨pack, st.packItems pack, update_self .., update_self .., hm, by
        simp⟩
    · obtain ⟨p, r, hp, hr, hpm, hrlt⟩ := h.inside g' hin
      refine ⟨p, r, (hold _ _ g' hin).trans hp, (hold _ _ g' hin).trans hr, hpm, ?_⟩
      by_cases hpp : p = pack
      · subst hpp
        simp only [update_self]
        omega
      · simp only [update_of_ne hpp]
        exact hrlt
  · intro p hp
    by_cases hpp : p = pack
    · subst hpp
      simp only [update_self]
      omega
    · simp only [update_of_ne hpp]
      exact h.items_le p hp
  · -- an item placed before has a rank below the items of its pack
    have hnew : ∀ g' ∈ placed, st.packIndex g' = (pack : Int) →
        st.rankInPack g' ≠ (st.packItems pack : Int) := by
      intro g' hin hidx hrank
      obtain ⟨p, r, hp, hr, -, hrlt⟩ := h.inside g' hin
      have hpp : p = pack := by omega
      subst hpp
      omega
    intro g₁ h₁ g₂ h₂ hidx hrank
    rcases mem_cons.mp h₁ with rfl | hin₁
    · rcases mem_cons.mp h₂ with rfl | hin₂
      · rfl
      · simp only [update_self, hold _ _ g₂ hin₂] at hidx hrank
        exact absurd hrank.symm (hnew g₂ hin₂ hidx.symm)
    · rcases mem_cons.mp h₂ with rfl | hin₂
      · simp only [update_self, hold _ _ g₁ hin₁] at hidx hrank
        exact absurd hrank (hnew g₁ hin₁ hidx)
      · simp only [hold _ _ g₁ hin₁, hold _ _ g₂ hin₂] at hidx hrank
        exact h.apart g₁ hin₁ g₂ hin₂ hidx hrank
  · have hmem : pack ∈ Finset.range m := Finset.mem_range.mpr hm
    have hcount := h.count
    rw [← Finset.sum_erase_add _ _ hmem] at hcount
    rw [length_cons, ← Finset.sum_erase_add _ _ hmem]
    have hrest : ∑ p ∈ (Finset.range m).erase pack,
        update st.packItems pack (st.packItems pack + 1) p =
          ∑ p ∈ (Finset.range m).erase pack, st.packItems p :=
      Finset.sum_congr rfl fun p hp => update_of_ne (Finset.ne_of_mem_erase hp) _ _
    simp only [hrest, update_self]
    omega

end

theorem PackInv.loop {m size : Nat} (weight : Nat → W) {todo : List Nat} :
    ∀ {placed : List Nat} {st : PackState W}, PackInv m size placed st → todo.Nodup →
      (∀ g ∈ todo, g ∉ placed) → placed.length + todo.length ≤ m * size →
        ∃ st', todo.foldlM (packItem L m size weight) st = some st' ∧
          PackInv m size (todo.reverse ++ placed) st' := by
  induction todo with
  | nil => exact fun h _ _ _ => ⟨_, rfl, h⟩
  | cons g todo ih =>
    intro placed st h hnodup hfresh hlen
    rw [length_cons] at hlen
    obtain ⟨st₁, heq, h₁⟩ := h.step (L := L) (by omega) weight (hfresh g (mem_cons_self ..))
    have hfresh' : ∀ g' ∈ todo, g' ∉ g :: placed := by
      intro g' hin hmem
      rcases mem_cons.mp hmem with rfl | hmem
      · exact (nodup_cons.mp hnodup).1 hin
      · exact hfresh g' (mem_cons_of_mem _ hin) hmem
    obtain ⟨st', hfold, h'⟩ := ih h₁ (nodup_cons.mp hnodup).2 hfresh' (by
      rw [length_cons]
      omega)
    refine ⟨st', ?_, ?_⟩
    · rw [foldlM_cons, heq]
      exact hfold
    · rw [reverse_cons, append_assoc]
      exact h'

/-- Every pack gets the same number of items, with the ranks from zero on. -/
theorem balancedPacking_spec (L : Loads W) {n m : Nat} (hm : 0 < m) (hdvd : m ∣ n)
    (weight : Nat → W) :
    ∃ pack rank, balancedPacking L n m weight = some (pack, rank) ∧
      (∀ g, g < n → pack g < m ∧ rank g < n / m) ∧
      BijOn (fun g => pack g * (n / m) + rank g) (Iio n) (Iio n) := by
  have hn : m * (n / m) = n := Nat.mul_div_cancel' hdvd
  unfold balancedPacking
  rw [if_neg (by rw [Nat.mod_eq_zero_of_dvd hdvd]; omega)]
  dsimp only
  by_cases hone : n / m = 1
  -- one item a pack: the identity
  · rw [if_pos hone]
    refine ⟨id, fun _ => 0, rfl, ?_, ?_⟩
    · intro g hg
      rw [hone] at hn ⊢
      exact ⟨by simpa [← hn] using hg, Nat.one_pos⟩
    · have hid : (fun g => id g * (n / m) + 0) = id := by
        funext g
        rw [hone, Nat.mul_one, Nat.add_zero]
      rw [hid]
      exact bijOn_id _
  · rw [if_neg hone]
    -- the heaviest items first, each to the lightest pack with room
    have hperm := L.sortDescending_perm ((List.range n).map weight)
    rw [length_map, length_range] at hperm
    have hstart : PackInv m (n / m) [] ({ packWeights := fun _ => L.zero } : PackState W) :=
      ⟨(fun _ h => nomatch h), fun _ _ => Nat.zero_le _, (fun _ h => nomatch h), by simp⟩
    obtain ⟨st, hfold, hinv⟩ := hstart.loop (L := L) weight
      (hperm.nodup_iff.mpr nodup_range) (fun _ _ h => nomatch h)
      (by rw [hperm.length_eq, length_range, length_nil, hn]; omega)
    rw [append_nil] at hinv
    have hmem : ∀ g, g < n → g ∈ (L.sortDescending ((List.range n).map weight)).reverse :=
      fun g hg => mem_reverse.mpr (hperm.mem_iff.mpr (mem_range.mpr hg))
    have hvals : ∀ g, g < n → ∃ p r : Nat, st.packIndex g = p ∧ st.rankInPack g = r ∧ p < m ∧
        r < n / m := by
      intro g hg
      obtain ⟨p, r, hp, hr, hpm, hrlt⟩ := hinv.inside g (hmem g hg)
      exact ⟨p, r, hp, hr, hpm, hrlt.trans_le (hinv.items_le p hpm)⟩
    refine ⟨fun g => (st.packIndex g).toNat, fun g => (st.rankInPack g).toNat, by rw [hfold]; rfl,
      ?_, ?_⟩
    · intro g hg
      obtain ⟨p, r, hp, hr, hpm, hrlt⟩ := hvals g hg
      simp only [hp, hr, Int.toNat_natCast]
      exact ⟨hpm, hrlt⟩
    · apply bijOn_code hn
      · intro g hg
        obtain ⟨p, r, hp, -, hpm, -⟩ := hvals g hg
        simp only [hp, Int.toNat_natCast]
        exact hpm
      · intro g hg
        obtain ⟨p, r, -, hr, -, hrlt⟩ := hvals g hg
        simp only [hr, Int.toNat_natCast]
        exact hrlt
      · intro g hg g' hg' hb hr
        obtain ⟨p, r, hp, hr₁, -, -⟩ := hvals g hg
        obtain ⟨p', r', hp', hr₂, -, -⟩ := hvals g' hg'
        simp only [hp, hp', hr₁, hr₂, Int.toNat_natCast] at hb hr
        subst hb hr
        exact hinv.apart g (hmem g hg) g' (hmem g' hg') (hp.trans hp'.symm) (hr₁.trans hr₂.symm)

/-! ## Section 2: Replicas -/

/-- Each of the first `numPhy` slots is one replica of one of `numLog` experts, and the replicas of
an expert are numbered from zero on. -/
structure Ranked (numLog numPhy : Nat) (r : Replicas) : Prop where
  expert_lt : ∀ p, p < numPhy → r.phy2log p < numLog
  rank_lt : ∀ p, p < numPhy → r.phyrank p < r.logcnt (r.phy2log p)
  apart : ∀ p, p < numPhy → ∀ q, q < numPhy → r.phy2log p = r.phy2log q →
    r.phyrank p = r.phyrank q → p = q
  onto : ∀ e, e < numLog → ∀ k, k < r.logcnt e → ∃ p, p < numPhy ∧ r.phy2log p = e ∧ r.phyrank p = k
  logcnt_pos : ∀ e, e < numLog → 1 ≤ r.logcnt e

theorem Ranked.extend {numLog i : Nat} {r : Replicas} (h : Ranked numLog i r) {red : Nat}
    (hred : red < numLog) :
    Ranked numLog (i + 1)
      { phy2log := update r.phy2log i red
        phyrank := update r.phyrank i (r.logcnt red)
        logcnt := update r.logcnt red (r.logcnt red + 1) } := by
  have hold : ∀ {t : Nat → Nat} {b : Nat}, ∀ p, p < i → update t i b p = t p :=
    fun p hp => update_of_ne hp.ne _ _
  have hcount : ∀ e, r.logcnt e ≤ update r.logcnt red (r.logcnt red + 1) e := by
    intro e
    by_cases he : e = red
    · subst he
      simp
    · rw [update_of_ne he]
  constructor
  · intro p hp
    dsimp only
    rcases Nat.lt_succ_iff_lt_or_eq.mp hp with hlt | rfl
    · rw [hold p hlt]
      exact h.expert_lt p hlt
    · rw [update_self]
      exact hred
  · intro p hp
    dsimp only
    rcases Nat.lt_succ_iff_lt_or_eq.mp hp with hlt | rfl
    · rw [hold p hlt, hold p hlt]
      exact (h.rank_lt p hlt).trans_le (hcount _)
    · rw [update_self, update_self, update_self]
      exact Nat.lt_succ_self _
  · -- the new slot has a rank that its expert did not have
    have hnew : ∀ p, p < i → r.phy2log p = red → r.phyrank p ≠ r.logcnt red := by
      intro p hp heq
      have := h.rank_lt p hp
      rw [heq] at this
      exact this.ne
    intro p hp q hq he hk
    rcases Nat.lt_succ_iff_lt_or_eq.mp hp with hlt | rfl
    · rcases Nat.lt_succ_iff_lt_or_eq.mp hq with hlt' | rfl
      · simp only [hold p hlt, hold q hlt'] at he hk
        exact h.apart p hlt q hlt' he hk
      · simp only [hold p hlt, update_self] at he hk
        exact absurd hk (hnew p hlt he)
    · rcases Nat.lt_succ_iff_lt_or_eq.mp hq with hlt' | rfl
      · simp only [hold q hlt', update_self] at he hk
        exact absurd hk.symm (hnew q hlt' he.symm)
      · rfl
  · intro e he k hk
    -- the one new replica is in slot `i`; the others were there
    by_cases hnewest : e = red ∧ k = r.logcnt red
    · obtain ⟨rfl, rfl⟩ := hnewest
      exact ⟨i, Nat.lt_succ_self i, update_self .., update_self ..⟩
    · have hk' : k < r.logcnt e := by
        by_cases hee : e = red
        · subst hee
          simp only [update_self] at hk
          omega
        · simpa only [update_of_ne hee] using hk
      obtain ⟨p, hp, hpe, hpk⟩ := h.onto e he k hk'
      exact ⟨p, hp.trans (Nat.lt_succ_self i), (hold p hp).trans hpe, (hold p hp).trans hpk⟩
  · intro e he
    exact (h.logcnt_pos e he).trans (hcount e)

theorem Ranked.step {numLog i : Nat} {r : Replicas} (h : Ranked numLog i r) (hlog : 0 < numLog)
    (L : Loads W) (weight : Nat → W) : Ranked numLog (i + 1)
    (replicateExpert L numLog weight r i) := by
  apply h.extend
  have hne : (List.range numLog).map (fun e => L.divide (weight e) (r.logcnt e)) ≠ [] :=
    ne_nil_of_length_pos (by rw [length_map, length_range]; exact hlog)
  have hlt := L.argmax_lt _ hne
  rwa [length_map, length_range] at hlt

/-- Every slot is a replica, as soon as there are at least as many slots as experts. -/
theorem replicateExperts_spec (L : Loads W) {numLog numPhy : Nat} (hlog : 0 < numLog)
    (hle : numLog ≤ numPhy) (weight : Nat → W) : ∃ r, replicateExperts L numLog numPhy weight =
      some r ∧ Ranked numLog numPhy r := by
  unfold replicateExperts
  rw [if_neg (by omega)]
  refine ⟨_, rfl, ?_⟩
  have hstart : Ranked numLog numLog
      { phy2log := id, phyrank := fun _ => 0, logcnt := fun _ => 1 } :=
    ⟨fun _ hp => hp, fun _ _ => Nat.one_pos, fun _ _ _ _ he _ => he,
      fun e he k hk => ⟨e, he, rfl, (Nat.lt_one_iff.mp hk).symm⟩, fun _ _ => le_rfl⟩
  have hloop : ∀ (count i : Nat) (r : Replicas), Ranked numLog i r →
      Ranked numLog (i + count)
        ((List.range' i count).foldl (replicateExpert L numLog weight) r) := by
    intro count
    induction count with
    | zero => exact fun i r h => h
    | succ count ih =>
      intro i r h
      have hrest := ih (i + 1) _ (h.step hlog L weight)
      rw [range'_succ, foldl_cons]
      rwa [Nat.add_right_comm] at hrest
  have hall := hloop (numPhy - numLog) numLog _ hstart
  rwa [Nat.add_sub_cancel' hle] at hall

/-! ## Section 3: The hierarchical policy -/

theorem nodePlan_spec (L : Loads W) {lpn ppn gpus size : Nat} (hlog : 0 < lpn) (hle : lpn ≤ ppn)
    (hgpus : 0 < gpus) (hsize : ppn = gpus * size) (tokensPerMlog : Nat → W) :
    ∃ plan, nodePlan L lpn ppn gpus size tokensPerMlog = some plan ∧ Ranked lpn ppn plan.replicas ∧
      BijOn plan.pphy2phy (Iio ppn) (Iio ppn) := by
  obtain ⟨r, hr, hranked⟩ := replicateExperts_spec L hlog hle tokensPerMlog
  obtain ⟨pack, rank, hpack, -, hbij⟩ := balancedPacking_spec L hgpus (Dvd.intro _ hsize.symm)
    fun p => L.divide (tokensPerMlog (r.phy2log p)) (r.logcnt (r.phy2log p))
  have hdiv : ppn / gpus = size := by rw [hsize, Nat.mul_div_cancel_left _ hgpus]
  rw [hdiv] at hbij
  refine ⟨⟨r, inverse ppn fun p => pack p * size + rank p⟩, ?_, hranked, bijOn_inverse hbij⟩
  rw [nodePlan, hr]
  show (balancedPacking L ppn gpus _).bind _ = _
  rw [hpack]
  rfl

/-- Placements of the nodes make a placement of all experts: `perm` says where an expert is among
the nodes' ones, and `inv` which one is there. -/
theorem Ranked.of_nodes {numNodes lpn ppn numLogical numPhysical : Nat} {plan : Nat → NodePlan}
    {perm inv : Nat → Nat} (hlog : numNodes * lpn = numLogical)
    (hphy : numNodes * ppn = numPhysical)
    (hplan : ∀ k, k < numNodes → Ranked lpn ppn (plan k).replicas ∧
      BijOn (plan k).pphy2phy (Iio ppn) (Iio ppn))
    (hperm : BijOn perm (Iio numLogical) (Iio numLogical))
    (hinv : BijOn inv (Iio numLogical) (Iio numLogical))
    (hleft : ∀ e, e < numLogical → inv (perm e) = e)
    (hright : ∀ j, j < numLogical → perm (inv j) = j) :
    Ranked numLogical numPhysical
      { phy2log := fun q =>
          inv ((plan (q / ppn)).replicas.phy2log ((plan (q / ppn)).pphy2phy (q % ppn)) +
            q / ppn * lpn)
        phyrank := fun q => (plan (q / ppn)).replicas.phyrank ((plan (q / ppn)).pphy2phy (q % ppn))
        logcnt := fun e => (plan (perm e / lpn)).replicas.logcnt (perm e % lpn) } := by
  subst hlog hphy
  -- a slot is a node and a place on it, and so is an expert
  have hslot : ∀ q, q < numNodes * ppn → q / ppn < numNodes ∧ q % ppn < ppn := by
    intro q hq
    have hpos : 0 < ppn := by
      rcases Nat.eq_zero_or_pos ppn with hzero | hpos
      · rw [hzero, Nat.mul_zero] at hq
        omega
      · exact hpos
    exact ⟨Nat.div_lt_of_lt_mul (by rwa [Nat.mul_comm]), Nat.mod_lt _ hpos⟩
  have hexpert : ∀ j, j < numNodes * lpn → j / lpn < numNodes ∧ j % lpn < lpn := by
    intro j hj
    have hpos : 0 < lpn := by
      rcases Nat.eq_zero_or_pos lpn with hzero | hpos
      · rw [hzero, Nat.mul_zero] at hj
        omega
      · exact hpos
    exact ⟨Nat.div_lt_of_lt_mul (by rwa [Nat.mul_comm]), Nat.mod_lt _ hpos⟩
  have hmlog : ∀ q, q < numNodes * ppn →
      (plan (q / ppn)).replicas.phy2log ((plan (q / ppn)).pphy2phy (q % ppn)) < lpn ∧
        (plan (q / ppn)).replicas.phy2log ((plan (q / ppn)).pphy2phy (q % ppn)) + q / ppn * lpn <
          numNodes * lpn := by
    intro q hq
    obtain ⟨hk, hp⟩ := hslot q hq
    obtain ⟨hranked, hbij⟩ := hplan _ hk
    have hlt := hranked.expert_lt _ (hbij.mapsTo hp)
    exact ⟨hlt, by rw [Nat.add_comm]; exact block_lt hk hlt⟩
  have hdivmod : ∀ m k, m < lpn → (m + k * lpn) / lpn = k ∧ (m + k * lpn) % lpn = m := by
    intro m k hm
    rw [Nat.add_mul_div_right _ _ (by omega), Nat.div_eq_of_lt hm, Nat.add_mul_mod_self_right,
      Nat.mod_eq_of_lt hm, Nat.zero_add]
    exact ⟨rfl, rfl⟩
  constructor
  · intro q hq
    exact hinv.mapsTo (hmlog q hq).2
  · intro q hq
    obtain ⟨hm, hlt⟩ := hmlog q hq
    obtain ⟨hk, hp⟩ := hslot q hq
    obtain ⟨hranked, hbij⟩ := hplan _ hk
    obtain ⟨hdiv, hmod⟩ := hdivmod _ (q / ppn) hm
    dsimp only
    rw [hright _ hlt, hdiv, hmod]
    exact hranked.rank_lt _ (hbij.mapsTo hp)
  · intro q hq q' hq' he hrank
    dsimp only at he hrank
    have hm := hinv.injOn (hmlog q hq).2 (hmlog q' hq').2 he
    rw [Nat.add_comm, Nat.add_comm _ (q' / ppn * lpn),
      block_eq_iff (hmlog q hq).1 (hmlog q' hq').1] at hm
    obtain ⟨hnode, hexp⟩ := hm
    obtain ⟨hk, hp⟩ := hslot q hq
    have hp' := (hslot q' hq').2
    obtain ⟨hranked, hbij⟩ := hplan _ hk
    rw [← hnode] at hexp hrank
    have hphy := hranked.apart _ (hbij.mapsTo hp) _ (hbij.mapsTo hp') hexp hrank
    rw [← Nat.div_add_mod q ppn, hnode, hbij.injOn hp hp' hphy, Nat.div_add_mod]
  · intro e he k hk
    have hj := hperm.mapsTo he
    obtain ⟨hnode, hplace⟩ := hexpert _ hj
    obtain ⟨hranked, hbij⟩ := hplan _ hnode
    obtain ⟨p, hp, hpe, hpk⟩ := hranked.onto _ hplace k hk
    obtain ⟨x, hx, rfl⟩ := hbij.surjOn hp
    have hx : x < ppn := hx
    have hqdiv : (perm e / lpn * ppn + x) / ppn = perm e / lpn := by
      rw [Nat.add_comm, Nat.add_mul_div_right _ _ (by omega), Nat.div_eq_of_lt hx, Nat.zero_add]
    have hqmod : (perm e / lpn * ppn + x) % ppn = x := by
      rw [Nat.add_comm, Nat.add_mul_mod_self_right, Nat.mod_eq_of_lt hx]
    refine ⟨perm e / lpn * ppn + x, block_lt hnode hx, ?_, ?_⟩
    · dsimp only
      rw [hqdiv, hqmod, hpe, Nat.mul_comm, Nat.mod_add_div, hleft e he]
    · dsimp only
      rw [hqdiv, hqmod, hpk]
  · intro e he
    obtain ⟨hnode, hplace⟩ := hexpert _ (hperm.mapsTo he)
    exact (hplan _ hnode).1.logcnt_pos _ hplace

/-- The shapes that the assertions of `rebalance_experts_hierarchical` ask for. -/
structure ShapesOk (numLogical numPhysical numGroups numNodes numGpus : Nat) : Prop where
  groups_pos : 0 < numGroups
  nodes_pos : 0 < numNodes
  gpus_pos : 0 < numGpus
  groups_dvd : numGroups ∣ numLogical
  nodes_dvd_groups : numNodes ∣ numGroups
  nodes_dvd_gpus : numNodes ∣ numGpus
  gpus_dvd : numGpus ∣ numPhysical

/-- The hierarchical policy places replicas of every expert in all slots. -/
theorem rebalanceExpertsHierarchical_spec (L : Loads W)
    {numLogical numPhysical numGroups numNodes numGpus : Nat}
    (hshape : ShapesOk numLogical numPhysical numGroups numNodes numGpus) (hlog : 0 < numLogical)
    (hle : numLogical ≤ numPhysical) (weight : Nat → W) :
    ∃ r, rebalanceExpertsHierarchical L numLogical numPhysical numGroups numNodes numGpus weight =
      some r ∧ Ranked numLogical numPhysical r := by
  obtain ⟨hg, hn, hu, hgd, hng, hnu, hud⟩ := hshape
  have hlpn : numNodes * (numLogical / numNodes) = numLogical := Nat.mul_div_cancel' (hng.trans hgd)
  have hppn : numNodes * (numPhysical / numNodes) = numPhysical :=
    Nat.mul_div_cancel' (hnu.trans hud)
  have hgs : numGroups * (numLogical / numGroups) = numLogical := Nat.mul_div_cancel' hgd
  have hlpn_pos : 0 < numLogical / numNodes := Nat.pos_of_ne_zero fun hzero => by
    rw [hzero, Nat.mul_zero] at hlpn
    omega
  have hgpus : 0 < numGpus / numNodes := Nat.div_pos (Nat.le_of_dvd hu hnu) hn
  have hsize : numPhysical / numNodes = numGpus / numNodes * (numPhysical / numGpus) := by
    rw [Nat.div_mul_div_comm hnu hud, Nat.mul_comm, Nat.mul_div_mul_right _ _ hu]
  obtain ⟨pack, rank, hpack, -, hcode⟩ := balancedPacking_spec L hn hng
    fun g => L.sum ((List.range (numLogical / numGroups)).map fun j =>
      weight (g * (numLogical / numGroups) + j))
  have hperm := bijOn_blocks (c := numLogical / numGroups) hcode
  rw [hgs] at hperm
  have hnode := fun k => nodePlan_spec L hlpn_pos (Nat.div_le_div_right hle) hgpus hsize fun j =>
    weight (inverse numLogical (fun e =>
      (pack (e / (numLogical / numGroups)) * (numGroups / numNodes) +
        rank (e / (numLogical / numGroups))) * (numLogical / numGroups) +
          e % (numLogical / numGroups)) (k * (numLogical / numNodes) + j))
  choose plan hplan hok using hnode
  have hread : ∀ k, k < numNodes →
      ((List.range numNodes).map plan).getD k ⟨⟨id, id, id⟩, id⟩ = plan k :=
    fun k hk => getD_map_range hk _
  have hplans : ∀ k, k < numNodes →
      Ranked (numLogical / numNodes) (numPhysical / numNodes)
          (((List.range numNodes).map plan).getD k ⟨⟨id, id, id⟩, id⟩).replicas ∧
        BijOn (((List.range numNodes).map plan).getD k ⟨⟨id, id, id⟩, id⟩).pphy2phy
          (Iio (numPhysical / numNodes)) (Iio (numPhysical / numNodes)) := by
    intro k hk
    rw [hread k hk]
    exact hok k
  have hranked := Ranked.of_nodes hlpn hppn hplans hperm
    (bijOn_inverse hperm) (fun e he => inverse_apply hperm.injOn he) (fun j hj =>
      apply_inverse hperm hj)
  refine ⟨_, ?_, hranked⟩
  unfold rebalanceExpertsHierarchical
  rw [if_neg]
  · show (balancedPacking L numGroups numNodes _).bind _ = _
    rw [hpack]
    have hmap := mapM_eq_map (l := List.range numNodes) fun k _ => hplan k
    show Option.bind (List.mapM _ (List.range numNodes)) _ = _
    rw [hmap]
    rfl
  · rw [Nat.mod_eq_zero_of_dvd hgd, Nat.mod_eq_zero_of_dvd hng, Nat.mod_eq_zero_of_dvd hnu,
      Nat.mod_eq_zero_of_dvd hud]
    omega

end Sglang.Eplb
