import Sglang.MemCache.MultiEndedBand

/-!
# Giving Back the Pages of a Two-Ended Pool

`free` in both modes keeps the invariant of the pool.

- `EndInv.freeLazy`: the freed pages become holes,
- `EndInv.freeEager`: survivors move into the freed pages, and the band stays packed.

`Relocates` says which moves an operation makes and what they do to the table of virtual pages.
-/

namespace Sglang.MemCache

open List
open Sglang.Lib

variable {cfg : EndConfig} {s t : MultiEndedAllocator} {live : List Int}

/-! ## Section 1: Lazy mode -/

namespace MultiEndedAllocator

theorem mem_freedVirtualPages {idx : List Nat} {v : Nat} :
    v ∈ freedVirtualPages cfg idx ↔ ∃ x ∈ idx, x / cfg.pageSize = v := by
  unfold freedVirtualPages
  split
  · next h => simp [h.1]
  · rw [(Allocator.unique_perm _).mem_iff, mem_dedup, mem_map]

theorem nodup_freedVirtualPages {idx : List Nat} (h : cfg.pageSize = 1 → idx.Nodup) :
    (freedVirtualPages cfg idx).Nodup := by
  unfold freedVirtualPages
  split
  · next hps => exact h hps.1
  · exact (Allocator.unique_perm _).nodup_iff.mpr (nodup_dedup _)

theorem mergeFree_perm (pages : List Int) : (mergeFree cfg pages).Perm pages := by
  unfold mergeFree
  split
  · exact Allocator.sortPages_perm _
  · exact .refl _

theorem mergeFree_sorted (hsort : cfg.sortAfterMerge = true) (pages : List Int) :
    (mergeFree cfg pages).Pairwise (· ≤ ·) := by
  unfold mergeFree
  rw [if_pos hsort]
  exact pairwise_insertionSort _ _

/-- The virtual pages `vs` and their physical pages `ps`. -/
structure Looked (s : MultiEndedAllocator) (live : List Int) (vs : List Nat) (ps : List Int) :
    Prop where
  mapM_eq : vs.mapM s.virtualToPhysical = some ps
  length_eq : vs.length = ps.length
  lookup : ∀ w ∈ vs.zip ps, s.virtualToPhysical w.1 = some w.2
  vs_nodup : vs.Nodup
  ps_nodup : ps.Nodup
  anchor : 0 ∉ vs
  sub_live : ∀ p ∈ ps, p ∈ live
  /-- The live pages are those and the others. -/
  split : live.Perm (live.filter (· ∉ ps) ++ ps)

namespace Looked

variable {vs : List Nat} {ps : List Int}

theorem fst_eq (h : Looked s live vs ps) : (vs.zip ps).map Prod.fst = vs :=
  map_fst_zip h.length_eq.le

theorem snd_eq (h : Looked s live vs ps) : (vs.zip ps).map Prod.snd = ps :=
  map_snd_zip h.length_eq.ge

end Looked

theorem Freeable.looked {idx : List Nat} (hfree : Freeable cfg s idx) (h : BandInv cfg s live) :
    ∃ ps, Looked s live (freedVirtualPages cfg idx) ps := by
  have hbound : ∀ v ∈ freedVirtualPages cfg idx, s.Bound v := by
    intro v hv
    obtain ⟨x, hx, rfl⟩ := mem_freedVirtualPages.mp hv
    exact hfree.bound x hx
  have hvs := nodup_freedVirtualPages hfree.nodup
  generalize freedVirtualPages cfg idx = vs at hbound hvs ⊢
  obtain ⟨ps, hps⟩ := mapM_isSome fun v hv => (hbound v hv).2
  obtain ⟨hlen, hlook⟩ := mapM_eq_some hps
  have hfst : (vs.zip ps).map Prod.fst = vs := map_fst_zip hlen.le
  have hsnd : (vs.zip ps).map Prod.snd = ps := map_snd_zip hlen.ge
  -- different virtual pages have different physical pages
  have hnodup : ps.Nodup := by
    rw [← hsnd]
    rw [← hfst] at hvs
    refine (nodup_map_iff_inj_on (List.Nodup.of_map _ hvs)).mpr ?_
    intro w hw w' hw' heq
    have hw₁ := hlook w hw
    rw [heq] at hw₁
    exact Prod.ext (h.inverse.injective hw₁ (hlook w' hw')) heq
  have hlive : ∀ p ∈ ps, p ∈ live := by
    intro p hp
    rw [← hsnd] at hp
    obtain ⟨w, hw, rfl⟩ := mem_map.mp hp
    exact h.live_of_bound (hbound _ (of_mem_zip hw).1).1 (hlook w hw)
  refine ⟨ps, hps, hlen, hlook, hvs, hnodup, fun h0 => (hbound 0 h0).1 rfl, hlive, ?_⟩
  have hkept : (live.filter (· ∉ ps) ++ ps).Nodup := by
    refine nodup_append.mpr ⟨h.live_nodup.filter _, hnodup, ?_⟩
    rintro p hp _ hq rfl
    simpa [hq] using (mem_filter.mp hp).2
  refine (perm_ext_iff_of_nodup h.live_nodup hkept).mpr fun p => ?_
  simp only [mem_append, mem_filter, decide_eq_true_eq]
  constructor
  · intro hp
    by_cases hin : p ∈ ps
    · exact .inr hin
    · exact .inl ⟨hp, hin⟩
  · rintro (hp | hp)
    · exact hp.1
    · exact hlive p hp

end MultiEndedAllocator

namespace EndInv

open MultiEndedAllocator

theorem giveBack (h : EndInv cfg s live) {vs : List Nat} {ps : List Int}
    (hlook : Looked s live vs ps) (howner : cfg.isIdOwner = true) :
    VirtualIds cfg
      { s with
        virtualToPhysical := scatter s.virtualToPhysical (vs.map fun v => (v, none))
        freeVirtualIds := s.freeVirtualIds ++ vs }
      (live.filter (· ∉ ps)) := by
  have hids := h.virtualIds howner
  have hbound : ∀ v ∈ vs, s.virtualToPhysical v ≠ none := by
    intro v hv hnone
    rw [← hlook.fst_eq] at hv
    obtain ⟨w, hw, rfl⟩ := mem_map.mp hv
    rw [hlook.lookup w hw] at hnone
    cases hnone
  refine ⟨nodup_append.mpr ⟨hids.nodup, hlook.vs_nodup, ?_⟩, ?_, ?_⟩
  · rintro v hv _ hw rfl
    exact hbound v hw (hids.unbound v hv)
  · intro v hv
    change scatter s.virtualToPhysical _ v = none
    rw [scatter_const]
    split
    · rfl
    · next hnot =>
      exact hids.unbound v ((mem_append.mp hv).resolve_right hnot)
  · have hperm := hlook.split.length_eq
    have := hids.length
    have := hlook.length_eq
    simp only [length_append] at hperm ⊢
    omega

theorem freeLazy (h : EndInv cfg s live) (hlazy : cfg.lazyCompaction = true) {idx : List Nat}
    (hfree : Freeable cfg s idx) (hgroup : s.freeGroup = []) :
    ∃ t ps, s.freeLazy cfg idx = some t ∧ Looked s live (freedVirtualPages cfg idx) ps ∧
      t.freeGroup = [] ∧
      t.virtualToPhysical = scatter s.virtualToPhysical
        ((freedVirtualPages cfg idx).map fun v => (v, none)) ∧
      EndInv cfg t (live.filter (· ∉ ps)) := by
  obtain ⟨ps, hlook⟩ := hfree.looked h.toBandInv
  generalize hvs : freedVirtualPages cfg idx = vs at hlook
  refine ⟨{ s with
      virtualToPhysical := scatter s.virtualToPhysical (vs.map fun v => (v, none))
      physicalToVirtual := scatter s.physicalToVirtual (ps.map fun p => (p, none))
      freeVirtualIds := if cfg.isIdOwner then s.freeVirtualIds ++ vs else s.freeVirtualIds
      freePhysPages := mergeFree cfg (s.freePhysPages ++ ps)
      livePageCount := s.livePageCount - ps.length }, ps,
    by simp [MultiEndedAllocator.freeLazy, hvs, hlook.mapM_eq], hlook, hgroup, rfl, ?_⟩
  have hrel := h.inverse.release (vs.zip ps) hlook.lookup
  rw [hlook.fst_eq, hlook.snd_eq] at hrel
  -- the freed pages leave the live ones and wait to be used again
  have hperm : (live.filter (· ∉ ps) ++ mergeFree cfg (s.freePhysPages ++ ps)).Perm
      (live ++ s.freePhysPages) := by
    calc (live.filter (· ∉ ps) ++ mergeFree cfg (s.freePhysPages ++ ps)).Perm
          (live.filter (· ∉ ps) ++ (ps ++ s.freePhysPages)) :=
          ((mergeFree_perm _).trans perm_append_comm).append_left _
      _ |>.Perm (live ++ s.freePhysPages) := by
          rw [← List.append_assoc]
          exact hlook.split.symm.append_right _
  refine
    { watermark := h.watermark
      band := h.band.perm (hperm.append_right _)
      inverse := hrel
      live_iff := ?_
      anchor := ?_
      pending_cpu := h.pending_cpu
      events_nodup := h.events_nodup
      count := ?_
      eager := fun he => absurd he (by simp [hlazy])
      sorted := fun hsort => mergeFree_sorted hsort _
      virtualIds := ?_
      group := fun _ => hgroup
      grouped := ?_ }
  · intro p
    dsimp only
    rw [scatter_const, mem_filter, decide_eq_true_eq, h.live_iff p]
    split
    · next hin => simp [hin]
    · next hin => simp [hin]
  · dsimp only
    rw [scatter_const, if_neg hlook.anchor]
    exact h.anchor
  · intro hl
    have hlen := hlook.split.length_eq
    have := h.count hl
    simp only [length_append] at hlen ⊢
    omega
  · intro howner
    obtain ⟨hnodup, hunbound, hlen⟩ := h.giveBack hlook howner
    refine ⟨?_, ?_, ?_⟩ <;> simp only [howner, if_true]
    · exact hnodup
    · exact hunbound
    · exact hlen
  · simp only [hgroup]
    exact ⟨by simp, fun _ => by simp⟩

end EndInv

/-! ## Section 2: Eager compaction -/

/-- A batch of moves between physical pages. -/
def moveBatch (srcs dsts : List Int) (virts : List Nat) : List Move :=
  (srcs.zip (dsts.zip virts)).map fun m => ⟨m.1, m.2.1, m.2.2⟩

section MoveBatch

variable {srcs dsts : List Int} {virts : List Nat}

section

variable (h₁ : srcs.length = dsts.length) (h₂ : dsts.length = virts.length)
include h₁ h₂

theorem moveBatch_src :
    (moveBatch srcs dsts virts).map Move.src = srcs := by
  unfold moveBatch
  rw [map_map]
  exact map_fst_zip (by simp [h₁, h₂])

theorem moveBatch_pairs :
    (moveBatch srcs dsts virts).map (fun m => (m.dst, m.virt)) = dsts.zip virts := by
  unfold moveBatch
  rw [map_map]
  exact map_snd_zip (by simp [h₁, h₂])

theorem moveBatch_dst :
    (moveBatch srcs dsts virts).map Move.dst = dsts := by
  have h := congrArg (List.map Prod.fst) (moveBatch_pairs h₁ h₂)
  rw [map_map, map_fst_zip h₂.le] at h
  exact h

end

theorem moveBatch_bound (h₂ : dsts.length = virts.length) :
    (moveBatch srcs dsts virts).map (fun m => (m.src, m.virt)) = srcs.zip virts := by
  have hsnd : (dsts.zip virts).map Prod.snd = virts := map_snd_zip h₂.ge
  unfold moveBatch
  rw [map_map]
  conv_rhs => rw [← hsnd, zip_map_right]
  rfl

end MoveBatch

/-- The pages that `moves` copies between, and the table after it. -/
structure Relocates (f f' : Nat → Option Int) (moves : List Move) : Prop where
  dst_nodup : (moves.map Move.dst).Nodup
  virt_nodup : (moves.map Move.virt).Nodup
  bound : ∀ m ∈ moves, f m.virt = some m.src
  vacant : ∀ m ∈ moves, ∀ v, f v ≠ some m.dst
  table : f' = scatter f (moves.map fun m => (m.virt, some m.dst))

theorem Relocates.of_inverse {f : Nat → Option Int} {g : Int → Option Nat} {moves : List Move}
    (h : InverseTables f g) (hsrc : (moves.map Move.src).Nodup) (hdst : (moves.map Move.dst).Nodup)
    (hbound : ∀ m ∈ moves, g m.src = some m.virt) (hvacant : ∀ m ∈ moves, g m.dst = none) :
    Relocates f (scatter f (moves.map fun m => (m.virt, some m.dst))) moves := by
  have hvirt : ∀ m ∈ moves, f m.virt = some m.src := fun m hm => (h _ _).mpr (hbound m hm)
  refine ⟨hdst, ?_, hvirt, ?_, rfl⟩
  · -- two moves of one id would have one source
    refine (nodup_map_iff_inj_on (List.Nodup.of_map _ hdst)).mpr ?_
    intro m hm m' hm' hv
    have hv₁ := hvirt m hm
    rw [hv, hvirt m' hm'] at hv₁
    exact inj_on_of_nodup_map hsrc hm hm' (Option.some.inj hv₁).symm
  · intro m hm v hv
    have hbad := (h v m.dst).mp hv
    rw [hvacant m hm] at hbad
    cases hbad

/-- The moves of a compaction: each takes the id of its source to the destination. -/
structure Packing (s : MultiEndedAllocator) (srcs dsts : List Int) (moves : List Move) : Prop where
  src : moves.map Move.src = srcs
  dst : moves.map Move.dst = dsts
  bound : ∀ m ∈ moves, s.physicalToVirtual m.src = some m.virt

theorem packing_moveBatch {s : MultiEndedAllocator} {srcs dsts : List Int} {virts : List Nat}
    (hlen : srcs.length = dsts.length) (hvirts : srcs.mapM s.physicalToVirtual = some virts) :
    Packing s srcs dsts (moveBatch srcs dsts virts) := by
  obtain ⟨hvlen, hvlook⟩ := mapM_eq_some hvirts
  have hlen₂ : dsts.length = virts.length := hlen.symm.trans hvlen
  refine ⟨moveBatch_src hlen hlen₂, moveBatch_dst hlen hlen₂, ?_⟩
  intro m hm
  apply hvlook (m.src, m.virt)
  rw [← moveBatch_bound hlen₂]
  exact mem_map_of_mem hm

theorem moveBatch_writes {srcs dsts : List Int} {virts : List Nat}
    (hlen : srcs.length = dsts.length) (hvlen : srcs.length = virts.length) :
    virts.zip (dsts.map some) =
        (moveBatch srcs dsts virts).map (fun m => (m.virt, some m.dst)) ∧
      dsts.zip (virts.map some) =
        (moveBatch srcs dsts virts).map fun m => (m.dst, some m.virt) := by
  have hpairs := moveBatch_pairs hlen (hlen.symm.trans hvlen)
  constructor
  · have hswap := congrArg (List.map fun w : Int × Nat => (w.2, some w.1)) hpairs
    rw [map_map] at hswap
    rw [zip_map_right, ← zip_swap, map_map]
    exact hswap.symm
  · have hsome := congrArg (List.map fun w : Int × Nat => (w.1, some w.2)) hpairs
    rw [map_map] at hsome
    rw [zip_map_right]
    exact hsome.symm

namespace EndInv

open MultiEndedAllocator

theorem vacated_length {vacated freed : List Int} {kept : Int → Bool} (hvac : vacated.Nodup)
    (hfreed : freed.Nodup) (hlen : vacated.length = freed.length)
    (hmem : ∀ p ∈ freed, p ∈ vacated ↔ kept p = false) :
    (vacated.filter (· ∉ freed)).length = (freed.filter kept).length := by
  -- both lists without their common part
  have hcommon : (vacated.filter fun p => !decide (p ∉ freed)).Perm
      (freed.filter fun p => !kept p) := by
    refine (perm_ext_iff_of_nodup (hvac.filter _) (hfreed.filter _)).mpr fun p => ?_
    simp only [mem_filter, decide_not, Bool.not_not, decide_eq_true_eq]
    constructor
    · rintro ⟨hv, hf⟩
      exact ⟨hf, by simp [(hmem p hf).mp hv]⟩
    · rintro ⟨hf, hk⟩
      exact ⟨(hmem p hf).mpr (by simpa using hk), hf⟩
  have h₁ := (filter_append_perm (fun p => decide (p ∉ freed)) vacated).length_eq
  have h₂ := (filter_append_perm kept freed).length_eq
  have h₃ := hcommon.length_eq
  rw [length_append] at h₁ h₂
  omega

/-- The watermark retreats over `vacated`; the pages `srcs` of it that are not freed go to the
freed pages `dsts` that stay in the band. -/
structure Vacated (cfg : EndConfig) (wm : Int) (freed : List Int) (newWm : Int)
    (vacated srcs dsts : List Int) : Prop where
  key : cfg.key newWm = cfg.key wm - freed.length
  lo : cfg.lo ≤ cfg.key newWm
  vacated_mem : ∀ q, q ∈ vacated ↔ cfg.key newWm ≤ cfg.key q ∧ cfg.key q < cfg.key wm
  srcs_mem : ∀ q, q ∈ srcs ↔ q ∈ vacated ∧ q ∉ freed
  srcs_nodup : srcs.Nodup
  dsts_mem : ∀ q, q ∈ dsts ↔ q ∈ freed ∧ cfg.key q < cfg.key newWm
  dsts_nodup : dsts.Nodup
  length_eq : srcs.length = dsts.length

theorem compactPending_eq {wm : Int} {freed : List Int} (hband : Band cfg wm live)
    (hwm : cfg.Watermark wm) (hnodup : freed.Nodup) (hlive : ∀ q ∈ freed, q ∈ live)
    (hne : freed ≠ []) :
    ∃ newWm vacated srcs dsts, Vacated cfg wm freed newWm vacated srcs dsts ∧
      ∀ s : MultiEndedAllocator, s.watermark = wm → s.compactPending cfg freed =
        (srcs.mapM s.physicalToVirtual).bind fun vMoved => some
          ({ s with
              watermark := newWm
              virtualToPhysical := scatter s.virtualToPhysical (vMoved.zip (dsts.map some))
              physicalToVirtual :=
                scatter (scatter s.physicalToVirtual (vacated.map fun p => (p, none)))
                  (dsts.zip (vMoved.map some)) },
            moveBatch srcs dsts vMoved) := by
  have hdedup : freed.dedup = freed := dedup_eq_self.mpr hnodup
  have hk : freed.length ≠ 0 := fun hz => hne (length_eq_zero_iff.mp hz)
  generalize hnew : cfg.growDirection.retreat wm freed.length = newWm
  have hkey : cfg.key newWm = cfg.key wm - freed.length := by
    rw [← hnew]
    exact cfg.growDirection.key_retreat _ _
  generalize hkept : (fun q : Int =>
    cfg.growDirection.either (decide (q < newWm)) (decide (newWm < q))) = kept
  have hkept_iff : ∀ q, kept q = true ↔ cfg.key q < cfg.key newWm := by
    intro q
    rw [← hkept]
    unfold EndConfig.key GrowDirection.key
    cases cfg.growDirection <;> simp only [GrowDirection.either, decide_eq_true_eq]
    omega
  generalize hvac : pageRange (cfg.growDirection.either newWm (wm + 1)) freed.length = vacated
  have hvac_mem : ∀ q, q ∈ vacated ↔ cfg.key newWm ≤ cfg.key q ∧ cfg.key q < cfg.key wm := by
    intro q
    rw [← hvac]
    exact mem_new (by omega) rfl
  have hvac_nodup : vacated.Nodup := by
    rw [← hvac]
    exact nodup_pageRange _ _
  have hvac_len : vacated.length = freed.length := by rw [← hvac, length_pageRange]
  -- there are enough live pages to retreat over
  have hlen_live := hband.length hwm.1
  have hle := (subperm_of_subset hnodup hlive).length_le
  have hlo : cfg.lo ≤ cfg.key newWm := by omega
  have hfreed : ∀ q ∈ freed, cfg.lo ≤ cfg.key q ∧ cfg.key q < cfg.key wm := fun q hq =>
    hband.mem_key.mp (hlive q hq)
  have hvac_kept : ∀ q ∈ freed, q ∈ vacated ↔ kept q = false := by
    intro q hq
    rw [hvac_mem, ← Bool.not_eq_true, hkept_iff]
    have := hfreed q hq
    omega
  have hperm := Allocator.sortPages_perm (freed.filter kept)
  have hlen : (vacated.filter (· ∉ freed)).length = (sortPages (freed.filter kept)).length := by
    rw [hperm.length_eq]
    exact vacated_length hvac_nodup hnodup hvac_len hvac_kept
  have hrange : cfg.growDirection.either
      (decide ((cfg.minPageIndex : Int) ≤ newWm ∧ ∀ q ∈ freed, (cfg.minPageIndex : Int) ≤ q ∧
        q < wm))
      (decide (newWm ≤ (cfg.numPages : Int) - 1 ∧ ∀ q ∈ freed, wm < q ∧ q < cfg.numPages)) =
      true := by
    unfold EndConfig.lo EndConfig.key GrowDirection.key at hlo hfreed
    cases hd : cfg.growDirection <;>
      simp only [hd, GrowDirection.either, decide_eq_true_eq] at hlo hfreed ⊢
    · exact ⟨hlo, hfreed⟩
    · refine ⟨by omega, fun q hq => ?_⟩
      have := hfreed q hq
      omega
  refine ⟨newWm, vacated, vacated.filter (· ∉ freed), sortPages (freed.filter kept), ?_, ?_⟩
  · refine ⟨hkey, hlo, hvac_mem, ?_, hvac_nodup.filter _, ?_, ?_, hlen⟩
    · intro q
      simp only [mem_filter, decide_eq_true_eq]
    · intro q
      rw [hperm.mem_iff, mem_filter, hkept_iff]
    · exact hperm.nodup_iff.mpr (hnodup.filter _)
  · rintro s rfl
    subst hnew hkept hvac
    unfold compactPending
    simp only [hdedup]
    rw [if_neg hk]
    refine (if_neg ?_).trans rfl
    rintro (hout | hdiff)
    · exact hout hrange
    · exact hdiff hlen

namespace Vacated

variable {wm newWm : Int} {freed vacated srcs dsts : List Int} {moves : List Move}

section

variable (h : Vacated cfg wm freed newWm vacated srcs dsts)
include h

theorem srcs_live (hband : Band cfg wm live)
    {q : Int} (hq : q ∈ srcs) : q ∈ live := by
  have := (h.vacated_mem q).mp ((h.srcs_mem q).mp hq).1
  have := h.lo
  exact hband.mem_key.mpr (by omega)

theorem cleared_iff (hband : Band cfg wm live)
    (hlive : ∀ q ∈ freed, q ∈ live) {q : Int} (hq : q ∉ dsts) :
    q ∈ vacated ↔ q ∈ srcs ∨ q ∈ freed := by
  constructor
  · intro hv
    by_cases hf : q ∈ freed
    · exact .inr hf
    · exact .inl ((h.srcs_mem q).mpr ⟨hv, hf⟩)
  · rintro (hs | hf)
    · exact ((h.srcs_mem q).mp hs).1
    · -- a freed page that is not a destination lies in the vacated band
      have hkey := (hband.mem_key.mp (hlive q hf)).2
      have hnot : ¬ cfg.key q < cfg.key newWm := fun hlt => hq ((h.dsts_mem q).mpr ⟨hf, hlt⟩)
      exact (h.vacated_mem q).mpr (by omega)

theorem bound (hp : Packing s srcs dsts moves) :
    ∀ m ∈ moves, scatter s.physicalToVirtual (freed.map fun p => (p, none)) m.src =
      some m.virt := by
  intro m hm
  have hsrc : m.src ∈ srcs := hp.src ▸ mem_map_of_mem hm
  rw [scatter_const, if_neg ((h.srcs_mem _).mp hsrc).2]
  exact hp.bound m hm

theorem vacant (hp : Packing s srcs dsts moves) :
    ∀ m ∈ moves, scatter s.physicalToVirtual (freed.map fun p => (p, none)) m.dst = none := by
  intro m hm
  have hdst : m.dst ∈ dsts := hp.dst ▸ mem_map_of_mem hm
  rw [scatter_const, if_pos ((h.dsts_mem _).mp hdst).1]

theorem table (hp : Packing s srcs dsts moves)
    (hband : Band cfg wm live) (hlive : ∀ q ∈ freed, q ∈ live) :
    scatter (scatter s.physicalToVirtual (vacated.map fun p => (p, none)))
        (moves.map fun m => (m.dst, some m.virt)) =
      scatter (scatter (scatter s.physicalToVirtual (freed.map fun p => (p, none)))
        ((moves.map Move.src).map fun p => (p, none)))
        (moves.map fun m => (m.dst, some m.virt)) := by
  funext q
  refine scatter_congr fun hq => ?_
  have hq : q ∉ dsts := by
    rw [← hp.dst]
    simpa [Function.comp_def] using hq
  have hiff := h.cleared_iff hband hlive hq
  rw [scatter_const, scatter_const, scatter_const, hp.src]
  by_cases hs : q ∈ srcs <;> by_cases hf : q ∈ freed <;> simp [hiff, hs, hf]

theorem live_iff (hp : Packing s srcs dsts moves)
    (hband : Band cfg wm live) (hlive : ∀ q ∈ freed, q ∈ live)
    (hbound : ∀ q, q ∈ live ↔ q ≠ 0 ∧ (s.physicalToVirtual q).isSome = true) (q : Int) :
    q ∈ live.filter (fun q => cfg.key q < cfg.key newWm) ↔
      q ≠ 0 ∧ (scatter (scatter s.physicalToVirtual (vacated.map fun p => (p, none)))
        (moves.map fun m => (m.dst, some m.virt)) q).isSome = true := by
  rw [mem_filter, decide_eq_true_eq]
  by_cases hq : q ∈ dsts
  · -- a destination is bound again
    obtain ⟨m, hm, rfl⟩ : ∃ m ∈ moves, m.dst = q := by
      rw [← hp.dst] at hq
      exact mem_map.mp hq
    have hd := (h.dsts_mem _).mp hq
    have hl := hlive _ hd.1
    rw [scatter_eq (b := some m.virt)]
    · simp [hl, hd.2, ((hbound _).mp hl).1]
    · simpa [Function.comp_def, hp.dst] using h.dsts_nodup
    · exact mem_map.mpr ⟨m, hm, rfl⟩
  · rw [scatter_of_not_mem (by simpa [Function.comp_def, ← hp.dst] using hq), scatter_const]
    split
    · next hv =>
      have := (h.vacated_mem q).mp hv
      simp only [Option.isSome_none, Bool.false_eq_true, and_false, iff_false, not_and]
      omega
    · next hv =>
      rw [← hbound q]
      constructor
      · exact fun hl => hl.1
      · intro hl
        have := hband.mem_key.mp hl
        have := mt (h.vacated_mem q).mpr hv
        exact ⟨hl, by omega⟩

theorem band (hband : Band cfg wm live) :
    Band cfg newWm (live.filter fun q => cfg.key q < cfg.key newWm) := by
  have hkey := h.key
  have hsplit : Band cfg wm ((live.filter fun q => cfg.key q < cfg.key newWm) ++
      live.filter fun q => !decide (cfg.key q < cfg.key newWm)) :=
    hband.perm (filter_append_perm _ _)
  apply hsplit.cut (by omega)
  · intro q hq
    simpa using (mem_filter.mp hq).2
  · intro q hq
    simpa using (mem_filter.mp hq).2

end

end Vacated

theorem freeEager (h : EndInv cfg s live) (heager : cfg.lazyCompaction = false) {idx : List Nat}
    (hfree : Freeable cfg s idx) (hgroup : s.freeGroup = []) :
    ∃ t moves live', s.freeEager cfg idx = some (t, moves) ∧ t.freeGroup = [] ∧
      Relocates (scatter s.virtualToPhysical
        ((freedVirtualPages cfg idx).map fun v => (v, none))) t.virtualToPhysical moves ∧
      EndInv cfg t live' := by
  obtain ⟨ps, hlook⟩ := hfree.looked h.toBandInv
  generalize hvs : freedVirtualPages cfg idx = vs at hlook ⊢
  obtain ⟨hnil, hpnil⟩ := h.eager heager
  -- without holes every page of the band is live
  have hband : Band cfg s.watermark live := by
    simpa [hnil, hpnil, pendingPages] using h.band
  have hrel := h.inverse.release (vs.zip ps) hlook.lookup
  rw [hlook.fst_eq, hlook.snd_eq] at hrel
  unfold MultiEndedAllocator.freeEager
  simp only [hvs, hlook.mapM_eq, Option.bind_eq_bind, Option.bind_some]
  by_cases hk : ps = []
  · -- nothing is freed
    subst hk
    obtain rfl := length_eq_zero_iff.mp hlook.length_eq
    refine ⟨s, [], live, ?_, hgroup, ?_, h⟩
    · simp [compactPending]
    · exact ⟨by simp, by simp, by simp, by simp, by simp⟩
  obtain ⟨newWm, vacated, srcs, dsts, hvac, heq⟩ :=
    compactPending_eq hband h.watermark hlook.ps_nodup hlook.sub_live hk
  rw [heq { s with
    virtualToPhysical := scatter s.virtualToPhysical (vs.map fun v => (v, none))
    freeVirtualIds := if cfg.isIdOwner then s.freeVirtualIds ++ vs else s.freeVirtualIds } rfl]
  have hp2v : ∀ q ∈ srcs, (s.physicalToVirtual q).isSome := fun q hq =>
    ((h.live_iff q).mp (hvac.srcs_live hband hq)).2
  obtain ⟨virts, hvirts⟩ := mapM_isSome hp2v
  have hpack := packing_moveBatch hvac.length_eq hvirts
  obtain ⟨hwrite₁, hwrite₂⟩ := moveBatch_writes hvac.length_eq (mapM_eq_some hvirts).1
  simp only [hvirts, Option.bind_some]
  generalize moveBatch srcs dsts virts = moves at *
  have hsrc : (moves.map Move.src).Nodup := hpack.src ▸ hvac.srcs_nodup
  have hdst : (moves.map Move.dst).Nodup := hpack.dst ▸ hvac.dsts_nodup
  have hbound := hvac.bound hpack
  have hnewBand := hvac.band hband
  have hkey := hvac.key
  have hlo := hvac.lo
  have hanchor : scatter s.virtualToPhysical (vs.map fun v => (v, none)) 0 = some 0 := by
    rw [scatter_const, if_neg hlook.anchor]
    exact h.anchor
  refine ⟨_, moves, live.filter (fun q => cfg.key q < cfg.key newWm), rfl, hgroup, ?_, ?_⟩
  · rw [hwrite₁]
    exact .of_inverse hrel hsrc hdst hbound (hvac.vacant hpack)
  · refine
      { watermark := ⟨hlo, ?_⟩
        band := by simpa [hnil, hpnil, pendingPages] using hnewBand
        inverse := ?_
        live_iff := ?_
        anchor := ?_
        pending_cpu := h.pending_cpu
        events_nodup := h.events_nodup
        count := fun hl => absurd hl (by simp [heager])
        eager := fun _ => ⟨hnil, hpnil⟩
        sorted := h.sorted
        virtualIds := ?_
        group := fun _ => hgroup
        grouped := by simp only [hgroup]; exact ⟨by simp, fun _ => by simp⟩ }
    · have := h.watermark.2
      dsimp only
      omega
    · dsimp only
      rw [hwrite₁, hwrite₂, hvac.table hpack hband hlook.sub_live]
      exact hrel.move hsrc hdst hbound (hvac.vacant hpack)
    · intro q
      dsimp only
      rw [hwrite₂]
      exact hvac.live_iff hpack hband hlook.sub_live h.live_iff q
    · -- the anchor page is bound to the id zero, so no move is of that id
      dsimp only
      rw [hwrite₁, scatter_of_not_mem, hanchor]
      intro hmem
      obtain ⟨w, hw, hw0⟩ := mem_map.mp hmem
      obtain ⟨m, hm, rfl⟩ := mem_map.mp hw
      have hback := (hrel _ _).mpr (hbound m hm)
      rw [show m.virt = 0 from hw0, hanchor] at hback
      have hlive := hvac.srcs_live hband (hpack.src ▸ mem_map_of_mem hm)
      exact h.in_band hlive (Option.some.inj hback).symm
    · intro howner
      obtain ⟨hnodup, hunbound, hlen⟩ := h.giveBack hlook howner
      have hl₁ := hband.length h.watermark.1
      have hl₂ := hnewBand.length hlo
      have hl₃ := hlook.split.length_eq
      rw [length_append] at hl₃
      refine ⟨?_, ?_, ?_⟩ <;> simp only [howner, if_true]
      · exact hnodup
      · -- an id that is given back is not moved
        intro v hv
        have hnone := hunbound v hv
        dsimp only at hnone
        rw [hwrite₁, scatter_of_not_mem, hnone]
        intro hmem
        obtain ⟨w, hw, rfl⟩ := mem_map.mp hmem
        obtain ⟨m, hm, rfl⟩ := mem_map.mp hw
        rw [(hrel _ _).mpr (hbound m hm)] at hnone
        cases hnone
      · dsimp only at hlen
        omega

end EndInv

end Sglang.MemCache
