import Mathlib.Data.Bool.Count
import Mathlib.Tactic
import Sglang.Eplb.DeepseekReplicas

/-!
# Rebalancing over the Live Ranks

Model of `eplb_algorithms/elasticity_aware.py`. The placement is computed over the slots of the live
ranks, numbered without gaps, and then spread over all ranks: an inactive rank gets a slice of
zeros, and the slots behind it move up.

- `place`: where a slot of the compact numbering ends up,
- `expandLoop_log2phy`, `expandLoop_slices`: the loop over the ranks moves every entry and every
  slice there,
- `rebalanceExperts_consistent`: the maps name exactly the slots of the live ranks.
-/

namespace Sglang.Eplb

open List
open Sglang.Lib

variable {W : Type}

/-- The maps of one layer; `log2phy` has a row for each expert. -/
structure LayerMaps where
  phy2log : List Nat
  log2phy : Nat → List Int
  logcnt : Nat → Nat

/-- `list.insert`. -/
def insertAt {α : Type} (l : List α) (i : Nat) (x : α) : List α := l.take i ++ x :: l.drop i

/-- The slices of `phy2log` for each rank, and `log2phy`. -/
structure Expansion where
  slices : List (List Nat)
  log2phy : Nat → List Int

def Expansion.insertInactive (numLocalExperts : Nat) (st : Expansion) (idx : Nat) : Expansion where
  slices := insertAt st.slices idx ((st.slices.headD []).map fun _ => 0)
  log2phy e := (st.log2phy e).map fun x =>
    if ((idx * numLocalExperts : Nat) : Int) ≤ x then x + (numLocalExperts : Int) else x

/-- `for idx, active_rank in enumerate(active_ranks_list)`, from `idx` on. -/
def expandLoop (numLocalExperts : Nat) : Nat → List Bool → Expansion → Expansion
  | _, [], st => st
  | idx, activeRank :: rest, st =>
    expandLoop numLocalExperts (idx + 1) rest
      (if activeRank then st else st.insertInactive numLocalExperts idx)

/-- `log2phy` over the compact slots: `-1` but for what the scatter writes. -/
def scatterLog2phy (numSlots maxlogcnt : Nat) (r : Replicas) (e : Nat) : List Int :=
  let flat : Nat → Int := scatter (fun _ => -1)
    ((List.range numSlots).map fun p => (r.phy2log p * maxlogcnt + r.phyrank p, (p : Int)))
  (List.range maxlogcnt).map fun k => flat (e * maxlogcnt + k)

/-- `phy2log.view(num_layers, num_active_ranks, -1).unbind(dim=1)`. -/
def sliceByRank (phy2log : Nat → Nat) (numLocalExperts numActiveRanks : Nat) : List (List Nat) :=
  (List.range numActiveRanks).map fun a =>
    (List.range numLocalExperts).map fun j => phy2log (a * numLocalExperts + j)

/-- The maps of a layer from its placement over the compact slots. -/
def layerMaps (numLocalExperts maxlogcnt numGpus : Nat) (activeRanks : List Bool) (r : Replicas) :
    LayerMaps :=
  let numActiveRanks := activeRanks.count true
  let log2phy := scatterLog2phy (numLocalExperts * numActiveRanks) maxlogcnt r
  if numActiveRanks < numGpus then
    let st := expandLoop numLocalExperts 0 activeRanks
      { slices := sliceByRank r.phy2log numLocalExperts numActiveRanks, log2phy }
    { phy2log := st.slices.flatten, log2phy := st.log2phy, logcnt := r.logcnt }
  else
    { phy2log := (List.range (numLocalExperts * numActiveRanks)).map r.phy2log, log2phy, logcnt :=
      r.logcnt }

/-- `rebalance_experts`; `weight` has a row for each layer, and the maximum of no counts raises. -/
def rebalanceExperts (L : Loads W) (numLogical numReplicas numGroups numNodes numGpus : Nat)
    (enableHierarchical : Bool) (activeRanks : List Bool) (weight : List (Nat → W)) :
    Option (List LayerMaps) :=
  if numGpus = 0 then none
  else do
    let numActiveRanks := activeRanks.count true
    let numLocalExperts := numReplicas / numGpus
    let plans ← weight.mapM fun w =>
      if numActiveRanks < numGpus then
        rebalanceExpertsHierarchical L numLogical (numLocalExperts * numActiveRanks) 1 1
          numActiveRanks w
      else if enableHierarchical then
        rebalanceExpertsHierarchical L numLogical numReplicas numGroups numNodes numGpus w
      else rebalanceExpertsHierarchical L numLogical numReplicas 1 1 numGpus w
    let maxlogcnt ← (plans.flatMap fun r => (List.range numLogical).map r.logcnt).max?
    some (plans.map (layerMaps numLocalExperts maxlogcnt numGpus activeRanks))

/-! ## Section 1: The compact numbering -/

variable {r : Replicas} {rest : List Bool} {n : Nat} {active : List Bool}

/-- The row of an expert: its slots by rank, and `-1` behind them. -/
theorem scatterLog2phy_spec {numLogical numSlots maxlogcnt : Nat}
    (h : Ranked numLogical numSlots r) {e : Nat} (he : e < numLogical)
    (hmax : ∀ e, e < numLogical → r.logcnt e ≤ maxlogcnt) :
    ∃ slots : List Nat, scatterLog2phy numSlots maxlogcnt r e =
        slots.map (fun p : Nat => (p : Int)) ++ List.replicate (maxlogcnt - slots.length) (-1) ∧
      slots.Nodup ∧ slots.length = r.logcnt e ∧
      ∀ p, p ∈ slots ↔ p < numSlots ∧ r.phy2log p = e := by
  have hrank : ∀ p, p < numSlots → r.phyrank p < maxlogcnt :=
    fun p hp => (h.rank_lt p hp).trans_le (hmax _ (h.expert_lt p hp))
  -- no two slots have the same expert and rank, so each cell is written once
  have hkeys : (((List.range numSlots).map fun p =>
      (r.phy2log p * maxlogcnt + r.phyrank p, (p : Int))).map Prod.fst).Nodup := by
    rw [map_map]
    refine List.Nodup.map_on ?_ nodup_range
    intro p hp q hq heq
    have hp := mem_range.mp hp
    have hq := mem_range.mp hq
    obtain ⟨hexp, hk⟩ := (block_eq_iff (hrank p hp) (hrank q hq)).mp heq
    exact h.apart p hp q hq hexp hk
  choose! slot hslot using h.onto e he
  refine ⟨(List.range (r.logcnt e)).map slot, ?_, ?_, by simp, ?_⟩
  · rw [map_map, length_map, length_range]
    unfold scatterLog2phy
    have hsplit : List.range maxlogcnt =
        List.range (r.logcnt e) ++ List.range' (r.logcnt e) (maxlogcnt - r.logcnt e) := by
      have happend := range'_append_1 (s := 0) (m := r.logcnt e) (n := maxlogcnt - r.logcnt e)
      rw [Nat.zero_add, Nat.add_sub_cancel' (hmax e he), ← range_eq_range',
        ← range_eq_range'] at happend
      exact happend.symm
    dsimp only
    rw [hsplit, map_append]
    congr 1
    · apply map_congr_left
      intro k hk
      have hk := mem_range.mp hk
      obtain ⟨hp, hexp, hpk⟩ := hslot k hk
      apply scatter_eq hkeys
      refine mem_map.mpr ⟨slot k, mem_range.mpr hp, ?_⟩
      rw [hexp, hpk]
      rfl
    · -- no slot has a rank from the count on
      apply eq_replicate_iff.mpr
      refine ⟨by simp, ?_⟩
      intro x hx
      obtain ⟨k, hk, rfl⟩ := mem_map.mp hx
      rw [mem_range'_1] at hk
      apply scatter_of_not_mem
      rw [map_map]
      intro hmem
      obtain ⟨p, hp, heq⟩ := mem_map.mp hmem
      have hp := mem_range.mp hp
      obtain ⟨hexp, hpk⟩ := (block_eq_iff (hrank p hp) (by omega)).mp heq
      have := h.rank_lt p hp
      rw [hexp] at this
      omega
  · refine List.Nodup.map_on ?_ nodup_range
    intro k hk k' hk' heq
    rw [← (hslot k (mem_range.mp hk)).2.2, heq, (hslot k' (mem_range.mp hk')).2.2]
  · intro p
    constructor
    · intro hmem
      obtain ⟨k, hk, rfl⟩ := mem_map.mp hmem
      obtain ⟨hp, hexp, -⟩ := hslot k (mem_range.mp hk)
      exact ⟨hp, hexp⟩
    · rintro ⟨hp, rfl⟩
      have hk := h.rank_lt p hp
      obtain ⟨hslot_lt, hexp, hpk⟩ := hslot _ hk
      exact mem_map.mpr ⟨r.phyrank p, mem_range.mpr hk, h.apart _ hslot_lt _ hp hexp hpk⟩

/-! ## Section 2: Where the loop moves an entry -/

/-- The slot that compact slot `y` becomes once the inactive ranks are put back. -/
def place (n : Nat) : List Bool → Nat → Nat
  | [], y => y
  | true :: rest, y => if y < n then y else n + place n rest (y - n)
  | false :: rest, y => n + place n rest y

def expandEntry (n : Nat) : Nat → List Bool → Int → Int
  | _, [], x => x
  | idx, activeRank :: rest, x =>
    expandEntry n (idx + 1) rest
      (if activeRank then x else if ((idx * n : Nat) : Int) ≤ x then x + (n : Int) else x)

theorem expandLoop_log2phy (n : Nat) (e : Nat) :
    ∀ {idx : Nat} {st : Expansion},
      (expandLoop n idx rest st).log2phy e = (st.log2phy e).map (expandEntry n idx rest) := by
  induction rest with
  | nil =>
    intro idx st
    exact (map_id _).symm
  | cons activeRank rest ih =>
    intro idx st
    cases activeRank with
    | true => exact ih
    | false =>
      show (expandLoop n (idx + 1) rest (st.insertInactive n idx)).log2phy e = _
      rw [ih]
      show List.map _ (List.map _ _) = _
      rw [map_map]
      rfl

theorem expandEntry_of_lt :
    ∀ {idx : Nat} {x : Int}, x < ((idx * n : Nat) : Int) → expandEntry n idx rest x = x := by
  induction rest with
  | nil =>
    intro idx x _
    rfl
  | cons activeRank rest ih =>
    intro idx x hx
    have hstay : (if activeRank then x else if ((idx * n : Nat) : Int) ≤ x then x + (n : Int)
        else x) = x := by
      cases activeRank with
      | true => rfl
      | false =>
        show (if ((idx * n : Nat) : Int) ≤ x then x + (n : Int) else x) = x
        exact if_neg (by omega)
    show expandEntry n (idx + 1) rest _ = x
    rw [hstay]
    apply ih
    rw [Nat.succ_mul]
    omega

theorem expandEntry_add :
    ∀ {idx y : Nat}, expandEntry n idx rest ((idx * n + y : Nat) : Int) =
      ((idx * n + place n rest y : Nat) : Int) := by
  induction rest with
  | nil =>
    intro idx y
    rfl
  | cons activeRank rest ih =>
    intro idx y
    cases activeRank with
    | true =>
      show expandEntry n (idx + 1) rest ((idx * n + y : Nat) : Int) = _
      by_cases hy : y < n
      · rw [place, if_pos hy]
        apply expandEntry_of_lt
        rw [Nat.succ_mul]
        omega
      · -- the entry lies behind this rank's slots
        have hnext : idx * n + y = (idx + 1) * n + (y - n) := by
          rw [Nat.succ_mul]
          omega
        rw [place, if_neg hy, hnext, ih, Nat.succ_mul, Nat.add_assoc]
    | false =>
      have hshift : (if ((idx * n : Nat) : Int) ≤ ((idx * n + y : Nat) : Int)
          then ((idx * n + y : Nat) : Int) + (n : Int) else ((idx * n + y : Nat) : Int)) =
          (((idx + 1) * n + y : Nat) : Int) := by
        rw [if_pos (by omega), Nat.succ_mul]
        omega
      show expandEntry n (idx + 1) rest (if ((idx * n : Nat) : Int) ≤ _ then _ else _) = _
      rw [hshift, ih, place, Nat.succ_mul, Nat.add_assoc]

theorem expandEntry_zero (n : Nat) (active : List Bool) (y : Nat) :
    expandEntry n 0 active (y : Int) = (place n active y : Int) := by
  have h : expandEntry n 0 active ((0 * n + y : Nat) : Int) = _ := expandEntry_add
  rwa [Nat.zero_mul, Nat.zero_add, Nat.zero_add] at h

theorem expandEntry_of_all (h : ∀ a ∈ rest, a = true) :
    ∀ {idx : Nat} (x : Int), expandEntry n idx rest x = x := by
  induction rest with
  | nil =>
    intro idx x
    rfl
  | cons activeRank rest ih =>
    intro idx x
    obtain rfl := h activeRank mem_cons_self
    exact ih (fun a ha => h a (mem_cons_of_mem _ ha)) x

theorem expandEntry_padding (n : Nat) (active : List Bool) : expandEntry n 0 active (-1) = -1 :=
  expandEntry_of_lt (by omega)

/-! ## Section 3: The places are the slots of the live ranks -/

theorem place_strictMono (n : Nat) (active : List Bool) : StrictMono (place n active) := by
  induction active with
  | nil => exact strictMono_id
  | cons activeRank rest ih =>
    intro y y' hlt
    cases activeRank with
    | true =>
      show (if y < n then y else n + place n rest (y - n)) < if y' < n then y'
        else n + place n rest (y' - n)
      by_cases hy : y < n
      · rw [if_pos hy]
        by_cases hy' : y' < n
        · rw [if_pos hy']
          exact hlt
        · rw [if_neg hy']
          omega
      · rw [if_neg hy, if_neg (by omega)]
        exact Nat.add_lt_add_left (ih (by omega)) n
    | false => exact Nat.add_lt_add_left (ih hlt) n

theorem place_of_all (h : ∀ a ∈ active, a = true) (y : Nat) :
    place n active y = y := by
  have hentry := expandEntry_zero n active y
  rw [expandEntry_of_all h, Int.natCast_inj] at hentry
  exact hentry.symm

def OnLive (n : Nat) (active : List Bool) (p : Nat) : Prop := active[p / n]? = some true

theorem onLive_cons_add (hn : 0 < n) {a : Bool} {p : Nat} :
    OnLive n (a :: rest) (n + p) ↔ OnLive n rest p := by
  unfold OnLive
  rw [Nat.add_div_left _ hn, getElem?_cons_succ]

theorem onLive_cons_of_lt {a : Bool} {p : Nat} (hp : p < n) :
    OnLive n (a :: rest) p ↔ a = true := by
  unfold OnLive
  rw [Nat.div_eq_of_lt hp, getElem?_cons_zero, Option.some.injEq]

theorem onLive_place (hn : 0 < n) :
    ∀ {y : Nat}, y < active.count true * n → OnLive n active (place n active y) := by
  induction active with
  | nil =>
    intro y hy
    simp at hy
  | cons activeRank rest ih =>
    intro y hy
    cases activeRank with
    | true =>
      rw [count_cons_self, Nat.succ_mul] at hy
      rw [place]
      by_cases hlt : y < n
      · rw [if_pos hlt]
        exact (onLive_cons_of_lt hlt).mpr rfl
      · rw [if_neg hlt]
        exact (onLive_cons_add hn).mpr (ih (by omega))
    | false =>
      rw [count_cons_of_ne (by decide)] at hy
      exact (onLive_cons_add hn).mpr (ih hy)

theorem exists_place (hn : 0 < n) :
    ∀ {p : Nat}, OnLive n active p → ∃ y, y < active.count true * n ∧ place n active y = p := by
  induction active with
  | nil =>
    intro p hp
    cases hp
  | cons activeRank rest ih =>
    intro p hp
    by_cases hlt : p < n
    · obtain rfl := (onLive_cons_of_lt hlt).mp hp
      refine ⟨p, ?_, if_pos hlt⟩
      rw [count_cons_self, Nat.succ_mul]
      omega
    · obtain ⟨q, rfl⟩ := Nat.exists_eq_add_of_le (Nat.le_of_not_lt hlt)
      obtain ⟨y, hy, rfl⟩ := ih ((onLive_cons_add hn).mp hp)
      cases activeRank with
      | true =>
        refine ⟨n + y, ?_, ?_⟩
        · rw [count_cons_self, Nat.succ_mul]
          omega
        · rw [place, if_neg (by omega), Nat.add_sub_cancel_left]
      | false =>
        refine ⟨y, ?_, rfl⟩
        rw [count_cons_of_ne (by decide)]
        exact hy

/-! ## Section 4: Where the loop moves a slot -/

theorem length_flatten_of_forall {slices : List (List Nat)} (h : ∀ s ∈ slices, s.length = n) :
    slices.flatten.length = slices.length * n := by
  have hlengths : slices.map List.length = List.replicate slices.length n :=
    map_eq_replicate_iff.mpr h
  rw [length_flatten, hlengths, sum_replicate, smul_eq_mul]

/-- A slice for each of some ranks, with `n` slots in each. -/
structure Sliced (n ranks : Nat) (st : Expansion) : Prop where
  length : st.slices.length = ranks
  slots : ∀ s ∈ st.slices, s.length = n

variable {n ranks idx : Nat} {st : Expansion}

theorem Sliced.insertInactive (h : Sliced n ranks st) (hidx : idx ≤ ranks) (hpos : 0 < ranks) :
    Sliced n (ranks + 1) (st.insertInactive n idx) := by
  have hzeros : ((st.slices.headD []).map fun _ => 0).length = n := by
    obtain ⟨s, ss, hslices⟩ := exists_cons_of_length_pos (h.length ▸ hpos)
    rw [hslices, length_map]
    exact h.slots s (hslices ▸ mem_cons_self)
  constructor
  · show (st.slices.take idx ++ _ :: st.slices.drop idx).length = ranks + 1
    rw [length_append, length_cons, length_take, length_drop, h.length]
    omega
  · intro s hs
    rcases mem_append.mp hs with hs | hs
    · exact h.slots s (mem_of_mem_take hs)
    · rcases mem_cons.mp hs with rfl | hs
      · exact hzeros
      · exact h.slots s (mem_of_mem_drop hs)

theorem Sliced.getElem?_insertInactive (h : Sliced n ranks st) (hidx : idx ≤ ranks)
    (hpos : 0 < ranks) (y : Nat) :
    (st.insertInactive n idx).slices.flatten[if idx * n ≤ y then y + n else y]? =
      st.slices.flatten[y]? := by
  have hins := h.insertInactive hidx hpos
  have htake : (st.slices.take idx).flatten.length = idx * n := by
    rw [length_flatten_of_forall fun s hs => h.slots s (mem_of_mem_take hs), length_take, h.length,
      Nat.min_eq_left hidx]
  have hzeros : ((st.slices.headD []).map fun _ => 0).length = n :=
    hins.slots _ (mem_append_right _ mem_cons_self)
  have hsplit : st.slices.flatten =
      (st.slices.take idx).flatten ++ (st.slices.drop idx).flatten := by
    rw [← flatten_append, take_append_drop]
  show (st.slices.take idx ++ _ :: st.slices.drop idx).flatten[_]? = _
  rw [flatten_append, flatten_cons, hsplit]
  by_cases hy : idx * n ≤ y
  · rw [if_pos hy, getElem?_append_right (by omega), getElem?_append_right (by omega),
      getElem?_append_right (by omega), htake, hzeros]
    congr 1
    omega
  · rw [if_neg hy, getElem?_append_left (by omega), getElem?_append_left (by omega)]

/-- Over the loop a slot goes where an entry with its number goes. -/
theorem expandLoop_slices :
    ∀ {idx ranks : Nat} {st : Expansion}, Sliced n ranks st → idx + rest.count true ≤ ranks →
    0 < ranks → Sliced n (ranks + rest.count false) (expandLoop n idx rest st) ∧
      ∀ y : Nat, ∃ q : Nat, expandEntry n idx rest (y : Int) = (q : Int) ∧
        (expandLoop n idx rest st).slices.flatten[q]? = st.slices.flatten[y]? := by
  induction rest with
  | nil =>
    intro idx ranks st h _ _
    exact ⟨h, fun y => ⟨y, rfl, rfl⟩⟩
  | cons activeRank rest ih =>
    intro idx ranks st h hidx hpos
    cases activeRank with
    | true =>
      rw [count_cons_self] at hidx
      rw [count_cons_of_ne (by decide)]
      exact ih h (by omega) hpos
    | false =>
      rw [count_cons_of_ne (by decide)] at hidx
      have hins : Sliced n (ranks + 1) (st.insertInactive n idx) := h.insertInactive (by omega) hpos
      obtain ⟨hsliced, hmove⟩ :=
        ih hins (by omega : idx + 1 + rest.count true ≤ ranks + 1) ranks.succ_pos
      rw [count_cons_self]
      refine ⟨?_, ?_⟩
      · rw [Nat.add_assoc, Nat.add_comm 1] at hsliced
        exact hsliced
      · intro y
        obtain ⟨q, hq, hread⟩ := hmove (if idx * n ≤ y then y + n else y)
        refine ⟨q, ?_, hread.trans (h.getElem?_insertInactive (by omega) hpos y)⟩
        rw [← hq]
        show expandEntry n (idx + 1) rest
          (if ((idx * n : Nat) : Int) ≤ (y : Int) then (y : Int) + (n : Int) else (y : Int)) = _
        congr 1
        by_cases hy : idx * n ≤ y
        · rw [if_pos hy, if_pos (by omega)]
          exact (Int.natCast_add y n).symm
        · rw [if_neg hy, if_neg (by omega)]

theorem sliced_sliceByRank (phy2log : Nat → Nat) (n ranks : Nat) (log2phy : Nat → List Int) :
    Sliced n ranks { slices := sliceByRank phy2log n ranks, log2phy } where
  length := by
    show ((List.range ranks).map _).length = ranks
    rw [length_map, length_range]
  slots := by
    intro s hs
    obtain ⟨a, -, rfl⟩ := mem_map.mp hs
    rw [length_map, length_range]

theorem flatten_sliceByRank (phy2log : Nat → Nat) (n ranks : Nat) :
    (sliceByRank phy2log n ranks).flatten = (List.range (n * ranks)).map phy2log := by
  induction ranks with
  | zero => rfl
  | succ ranks ih =>
    rw [sliceByRank, range_succ, map_append, flatten_append, ← sliceByRank, ih, Nat.mul_succ,
      range_add, map_append]
    congr 1
    show (List.range n).map _ ++ [] = _
    rw [append_nil, map_map]
    apply map_congr_left
    intro j _
    rw [Function.comp_apply, Nat.mul_comm]

/-! ## Section 5: The maps of a layer -/

/-- The maps of a layer agree over the live ranks: `width` entries for an expert name its slots once
each and are `-1` from there on. -/
structure Consistent (numLocalExperts numLogical width : Nat) (activeRanks : List Bool)
    (m : LayerMaps) : Prop where
  length : m.phy2log.length = activeRanks.length * numLocalExperts
  row : ∀ e, e < numLogical → ∃ slots : List Nat,
    m.log2phy e = slots.map (fun p : Nat => (p : Int)) ++
    List.replicate (width - slots.length) (-1) ∧
    slots.Nodup ∧ slots.length ≤ width ∧ m.logcnt e = slots.length ∧ 1 ≤ m.logcnt e ∧
    ∀ p, p ∈ slots ↔ OnLive numLocalExperts activeRanks p ∧ m.phy2log[p]? = some e
  inactive : ∀ e, e < numLogical → ∀ p : Nat, activeRanks[p / numLocalExperts]? = some false →
    (p : Int) ∉ m.log2phy e
  once : ∀ p, OnLive numLocalExperts activeRanks p →
    ((List.range numLogical).flatMap m.log2phy).count (p : Int) = 1

theorem mem_row_iff {slots : List Nat} {k p : Nat} :
    (p : Int) ∈ slots.map (fun p : Nat => (p : Int)) ++ List.replicate k (-1) ↔ p ∈ slots := by
  rw [mem_append]
  constructor
  · rintro (hmem | hmem)
    · obtain ⟨q, hq, heq⟩ := mem_map.mp hmem
      exact Int.natCast_inj.mp heq ▸ hq
    · have := eq_of_mem_replicate hmem
      omega
  · intro hmem
    exact .inl (mem_map_of_mem hmem)

theorem count_row {slots : List Nat} (hnodup : slots.Nodup) (k p : Nat) :
    (slots.map (fun p : Nat => (p : Int)) ++ List.replicate k (-1)).count (p : Int) =
      if p ∈ slots then 1 else 0 := by
  have hpad : (List.replicate k (-1 : Int)).count (p : Int) = 0 := by
    apply count_eq_zero_of_not_mem
    intro hmem
    have := eq_of_mem_replicate hmem
    omega
  rw [count_append, hpad, Nat.add_zero,
    count_map_of_injective _ _ fun a b hab => Int.natCast_inj.mp hab, hnodup.count]

theorem sum_range_ite_eq {n e : Nat} (he : e < n) :
    ((List.range n).map fun i => if i = e then 1 else 0).sum = 1 := by
  show ∑ i ∈ Finset.range n, (if i = e then 1 else 0) = 1
  rw [Finset.sum_ite_eq', if_pos (Finset.mem_range.mpr he)]

/-- What is left to show of the maps: where the slots of the compact numbering and the rows went. -/
theorem Consistent.of_place {n numLogical width : Nat} {m : LayerMaps}
    (hn : 0 < n) (hr : Ranked numLogical (n * active.count true) r)
    (hwidth : ∀ e, e < numLogical → r.logcnt e ≤ width) (hlogcnt : m.logcnt = r.logcnt)
    (hlen : m.phy2log.length = active.length * n)
    (hplace : ∀ y, y < n * active.count true → m.phy2log[place n active y]? = some (r.phy2log y))
    (hrow : ∀ e, m.log2phy e =
      (scatterLog2phy (n * active.count true) width r e).map (expandEntry n 0 active)) :
    Consistent n numLogical width active m := by
  -- the slots of an expert are those of the live ranks, put in their places
  have hrows : ∀ e, e < numLogical → ∃ slots : List Nat,
      m.log2phy e = slots.map (fun p : Nat => (p : Int)) ++
      List.replicate (width - slots.length) (-1) ∧
      slots.Nodup ∧ slots.length ≤ width ∧ m.logcnt e = slots.length ∧ 1 ≤ m.logcnt e ∧
      ∀ p, p ∈ slots ↔ OnLive n active p ∧ m.phy2log[p]? = some e := by
    intro e he
    obtain ⟨slots, hscatter, hnodup, hcount, hmem⟩ := scatterLog2phy_spec hr he hwidth
    refine ⟨slots.map (place n active), ?_, hnodup.map (place_strictMono n active).injective, ?_,
      ?_, ?_, ?_⟩
    · rw [hrow, hscatter, map_append, map_map, map_map, length_map, map_replicate,
        expandEntry_padding]
      congr 1
      apply map_congr_left
      intro y _
      exact expandEntry_zero n active y
    · rw [length_map, hcount]
      exact hwidth e he
    · rw [length_map, hcount, hlogcnt]
    · rw [hlogcnt]
      exact hr.logcnt_pos e he
    · intro p
      rw [mem_map]
      constructor
      · rintro ⟨y, hy, rfl⟩
        obtain ⟨hlt, rfl⟩ := (hmem y).mp hy
        exact ⟨onLive_place hn (Nat.mul_comm n _ ▸ hlt), hplace y hlt⟩
      · rintro ⟨hlive, hread⟩
        obtain ⟨y, hy, rfl⟩ := exists_place hn hlive
        rw [Nat.mul_comm] at hy
        refine ⟨y, (hmem y).mpr ⟨hy, ?_⟩, rfl⟩
        rw [hplace y hy] at hread
        exact Option.some.inj hread
  refine ⟨hlen, hrows, ?_, ?_⟩
  · intro e he p hfalse hmem
    obtain ⟨slots, hslots, -, -, -, -, hiff⟩ := hrows e he
    rw [hslots, mem_row_iff] at hmem
    have hlive : active[p / n]? = some true := ((hiff p).mp hmem).1
    rw [hfalse] at hlive
    cases hlive
  · intro p hlive
    obtain ⟨y, hy, rfl⟩ := exists_place hn hlive
    rw [Nat.mul_comm] at hy
    have hcounts : (List.range numLogical).map (List.count (place n active y : Int) ∘ m.log2phy) =
        (List.range numLogical).map fun e => if e = r.phy2log y then 1 else 0 := by
      apply map_congr_left
      intro e he
      obtain ⟨slots, hslots, hnodup, -, -, -, hiff⟩ := hrows e (mem_range.mp he)
      have hmem : place n active y ∈ slots ↔ e = r.phy2log y := by
        rw [hiff, hplace y hy, Option.some.injEq]
        exact ⟨fun h => h.2.symm, fun h => ⟨hlive, h.symm⟩⟩
      rw [Function.comp_apply, hslots, count_row hnodup, if_congr hmem rfl rfl]
    rw [count_flatMap, hcounts, sum_range_ite_eq (hr.expert_lt y hy)]

theorem layerMaps_consistent {n numLogical width : Nat} (hn : 0 < n)
    (hlive : true ∈ active) (hr : Ranked numLogical (n * active.count true) r)
    (hwidth : ∀ e, e < numLogical → r.logcnt e ≤ width) :
    Consistent n numLogical width active (layerMaps n width active.length active r) := by
  have hall := count_true_add_count_false active
  unfold layerMaps
  dsimp only
  by_cases hsome : active.count true < active.length
  · rw [if_pos hsome]
    have hsliced := sliced_sliceByRank r.phy2log n (active.count true)
      (scatterLog2phy (n * active.count true) width r)
    have hfrom : 0 + active.count true ≤ active.count true := (Nat.zero_add _).le
    obtain ⟨hexpand, hmove⟩ := expandLoop_slices hsliced hfrom (count_pos_iff.mpr hlive)
    apply Consistent.of_place hn hr hwidth rfl
    · rw [length_flatten_of_forall hexpand.slots, hexpand.length, hall]
    · intro y hy
      obtain ⟨q, hq, hread⟩ := hmove y
      rw [expandEntry_zero, Int.natCast_inj] at hq
      subst hq
      rw [hread, flatten_sliceByRank, getElem?_map, getElem?_range hy]
      rfl
    · intro e
      exact expandLoop_log2phy n e
  · rw [if_neg hsome]
    have htrue : ∀ a ∈ active, a = true := by
      intro a ha
      have hcount : active.count true = active.length := by omega
      exact (count_eq_length.mp hcount a ha).symm
    have hplace := place_of_all (n := n) htrue
    apply Consistent.of_place hn hr hwidth rfl
    · rw [length_map, length_range, Nat.mul_comm]
      congr 1
      omega
    · intro y hy
      rw [hplace, getElem?_map, getElem?_range hy]
      rfl
    · intro e
      have hid : expandEntry n 0 active = id := funext fun x => expandEntry_of_all htrue x
      rw [hid]
      exact (map_id _).symm

/-! ## Section 6: Any set of live ranks -/

theorem exists_maxlogcnt {plans : List Replicas} {numLogical : Nat} (hplans : plans ≠ [])
    (hlog : 0 < numLogical) :
    ∃ width, (plans.flatMap fun r => (List.range numLogical).map r.logcnt).max? = some width ∧
      ∀ r ∈ plans, ∀ e, e < numLogical → r.logcnt e ≤ width := by
  have hmem : ∀ r ∈ plans, ∀ e, e < numLogical →
      r.logcnt e ∈ plans.flatMap fun r => (List.range numLogical).map r.logcnt := fun r hr e he =>
    mem_flatMap.mpr ⟨r, hr, mem_map_of_mem (mem_range.mpr he)⟩
  cases hmax : (plans.flatMap fun r => (List.range numLogical).map r.logcnt).max? with
  | none =>
    obtain ⟨r, rest, rfl⟩ := exists_cons_of_ne_nil hplans
    have hcount := hmem r mem_cons_self 0 hlog
    rw [max?_eq_none_iff.mp hmax] at hcount
    cases hcount
  | some width =>
    refine ⟨width, rfl, ?_⟩
    intro r hr e he
    exact (max?_eq_some_iff.mp hmax).2 _ (hmem r hr e he)

theorem chosenPolicy_spec (L : Loads W)
    {numLogical numReplicas numGroups numNodes numGpus numActive : Nat} {enableHierarchical : Bool}
    (hlog : 0 < numLogical) (hactive : 0 < numActive) (hle : numActive ≤ numGpus)
    (hdvd : numGpus ∣ numReplicas) (henough : numLogical ≤ numReplicas / numGpus * numActive)
    (hshape : numActive = numGpus → enableHierarchical = true →
      ShapesOk numLogical numReplicas numGroups numNodes numGpus) (w : Nat → W) :
    ∃ r, (if numActive < numGpus then
        rebalanceExpertsHierarchical L numLogical
        (numReplicas / numGpus * numActive) 1 1 numActive w
      else if enableHierarchical then
        rebalanceExpertsHierarchical L numLogical numReplicas numGroups numNodes numGpus w
      else rebalanceExpertsHierarchical L numLogical numReplicas 1 1 numGpus w) = some r ∧
      Ranked numLogical (numReplicas / numGpus * numActive) r := by
  have hglobal : ∀ {numPhysical gpus : Nat}, 0 < gpus → gpus ∣ numPhysical →
      ShapesOk numLogical numPhysical 1 1 gpus := fun hgpus hphys =>
    { groups_pos := Nat.one_pos, nodes_pos := Nat.one_pos, gpus_pos := hgpus
      groups_dvd := Nat.one_dvd _
      nodes_dvd_groups := Nat.one_dvd _, nodes_dvd_gpus := Nat.one_dvd _, gpus_dvd := hphys }
  by_cases hsome : numActive < numGpus
  · rw [if_pos hsome]
    exact rebalanceExpertsHierarchical_spec L (hglobal hactive (Nat.dvd_mul_left _ _)) hlog
      henough w
  · obtain rfl : numActive = numGpus := Nat.le_antisymm hle (Nat.le_of_not_lt hsome)
    rw [if_neg hsome]
    rw [Nat.div_mul_cancel hdvd] at henough ⊢
    cases enableHierarchical with
    | true => exact rebalanceExpertsHierarchical_spec L (hshape rfl rfl) hlog henough w
    | false => exact rebalanceExpertsHierarchical_spec L (hglobal hactive hdvd) hlog henough w

/-- Rebalancing produces consistent maps for every load and every set of live ranks with enough
slots. -/
theorem rebalanceExperts_consistent (L : Loads W)
    {numLogical numReplicas numGroups numNodes numGpus : Nat} {enableHierarchical : Bool}
    {activeRanks : List Bool} {weight : List (Nat → W)} (hlayers : weight ≠ [])
    (hlog : 0 < numLogical) (hranks : activeRanks.length = numGpus) (hlive : true ∈ activeRanks)
    (hdvd : numGpus ∣ numReplicas)
    (henough : numLogical ≤ numReplicas / numGpus * activeRanks.count true)
    (hshape : false ∉ activeRanks → enableHierarchical = true →
      ShapesOk numLogical numReplicas numGroups numNodes numGpus) :
    ∃ width maps,
    rebalanceExperts L numLogical numReplicas numGroups numNodes numGpus enableHierarchical
        activeRanks weight = some maps ∧ maps.length = weight.length ∧
      ∀ m ∈ maps, Consistent (numReplicas / numGpus) numLogical width activeRanks m := by
  subst hranks
  have hall := count_true_add_count_false activeRanks
  have hactive : 0 < activeRanks.count true := count_pos_iff.mpr hlive
  have hlocal : 0 < numReplicas / activeRanks.length := by
    apply Nat.pos_of_ne_zero
    intro hzero
    rw [hzero, Nat.zero_mul] at henough
    omega
  have hnone : activeRanks.count true = activeRanks.length → false ∉ activeRanks := fun heq =>
    count_eq_zero.mp (by omega)
  have hplan := chosenPolicy_spec L hlog hactive (by omega) hdvd henough
    fun heq => hshape (hnone heq)
  choose plan hsome hranked using hplan
  have hnonempty : weight.map plan ≠ [] := fun hnil => hlayers (map_eq_nil_iff.mp hnil)
  obtain ⟨width, hmax, hwidth⟩ := exists_maxlogcnt hnonempty hlog
  refine ⟨width,
    (weight.map plan).map (layerMaps (numReplicas / activeRanks.length) width activeRanks.length
    activeRanks), ?_, ?_, ?_⟩
  · unfold rebalanceExperts
    rw [if_neg (by omega)]
    dsimp only
    rw [mapM_eq_map fun w _ => hsome w, Option.bind_eq_bind, Option.bind_some, Option.bind_eq_bind,
      hmax, Option.bind_some]
  · rw [length_map, length_map]
  · intro m hm
    obtain ⟨r, hr, rfl⟩ := mem_map.mp hm
    have hr' := hr
    obtain ⟨w, -, rfl⟩ := mem_map.mp hr'
    exact layerMaps_consistent hlocal hlive (hranked w) (hwidth _ hr)

theorem max_mem_of_ne_nil {ws : List Nat} (h : ws ≠ []) : ws.max?.getD 0 ∈ ws := by
  obtain ⟨w, rest, rfl⟩ := exists_cons_of_ne_nil h
  cases hmax : (w :: rest).max? with
  | none => cases max?_eq_none_iff.mp hmax
  | some x => exact max?_mem hmax

def natLoads : Loads Nat where
  zero := 0
  add := (· + ·)
  lt x y := decide (x < y)
  divide := (· / ·)
  sum := List.sum
  sortDescending ws :=
    (List.range ws.length).mergeSort fun i j => decide (ws.getD j 0 ≤ ws.getD i 0)
  sortDescending_perm _ := mergeSort_perm _ _
  argmax ws := ws.idxOf (ws.max?.getD 0)
  argmax_lt _ hws := idxOf_lt_length_of_mem (max_mem_of_ne_nil hws)

/-- Two layers of two experts over three ranks, the middle one inactive. -/
theorem rebalanceExperts_consistent_gap :
    ∃ width maps, rebalanceExperts natLoads 2 3 1 1 3 true [true, false, true]
    [fun e => e, fun _ => 1] = some maps ∧ maps.length = 2 ∧
      ∀ m ∈ maps, Consistent (3 / 3) 2 width [true, false, true] m :=
  rebalanceExperts_consistent natLoads (by decide) (by decide) rfl (by decide) (by decide)
    (by decide)
    (fun h => absurd (by decide) h)

end Sglang.Eplb
