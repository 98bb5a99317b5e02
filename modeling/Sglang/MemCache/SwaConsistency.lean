import Sglang.MemCache.SwaAllocator
import Mathlib.Data.List.GetD

/-!
# The Two Pools of the Sliding-Window Allocator Stay Consistent

Full pages and sliding-window pages are paired one to one by `full_to_swa_index_mapping`. Both
sub-allocators run the same kernels on the same batch, so their outputs go in lockstep over the
pages they take (`extendSlots_lockstep`).

- `SwaInv`: the invariant, with the pairing as a witness,
- `swa_consistent`: it holds in every state of a run in which no decode batch fits one side only,
  and in such a state a call that returns `None` changes nothing, with that one exception.
-/

namespace Sglang.MemCache

open List
open Lib
open Allocator (ExtendReq Took Tidy perRequest getNumNewPages getNumNewPagesDecode)

/-! ## Section 1: Kernels in lockstep -/

section Kernels

variable {ps : Nat}

theorem slotAt_mod (pgs : List Nat) (k : Nat) : slotAt ps pgs k % ps = k % ps := by
  rw [slotAt, Nat.mul_comm, Nat.mul_add_mod, Nat.mod_mod]

theorem slotAt_div (hps : 0 < ps) (pgs : List Nat) (k : Nat) :
    slotAt ps pgs k / ps = pgs.getD (k / ps) 0 := by
  rw [slotAt, Nat.mul_comm, Nat.mul_add_div hps, Nat.div_eq_of_lt (Nat.mod_lt k hps), Nat.add_zero]

theorem extendSlots_aligned (hps : 0 < ps) {r : ExtendReq} (h : r.prefixLen % ps = 0) (l : Int)
    (pages : List Nat) :
    r.extendSlots ps pages = ({ r with lastLoc := l } : ExtendReq).extendSlots ps pages := by
  obtain ⟨k, hk⟩ := Nat.dvd_of_mod_eq_zero h
  have hpart : min r.seqLen (pageCount ps r.prefixLen * ps) - r.prefixLen = 0 := by
    rw [hk, Nat.mul_comm ps k, pageCount_mul hps]
    omega
  simp only [ExtendReq.extendSlots, ExtendReq.newPages, hpart, range_zero, map_nil]

/-- The slots of `alloc_extend_kernel`, position by position: first those of the page of the last
slot, then those of the new pages. -/
theorem extendSlots_eq (hps : 0 < ps) {r : ExtendReq} (hle : r.prefixLen ≤ r.seqLen) {b : Nat}
    (hb : r.prefixLen % ps ≠ 0 → r.lastLoc = (b * ps + (r.prefixLen % ps - 1) : Nat))
    (pages : List Nat) :
    r.extendSlots ps pages = (List.range (r.seqLen - r.prefixLen)).map fun j =>
      slotAt ps (List.replicate (pageCount ps r.prefixLen) b ++ pages) (r.prefixLen + j) := by
  -- a row of the right length that ends on page `b`
  have hrow : RowPages ps (rowOf ps (List.replicate (pageCount ps r.prefixLen) b) r.prefixLen)
      (List.replicate (pageCount ps r.prefixLen) b) := by
    refine ⟨by rw [rowOf_length], by rw [rowOf_length, length_replicate]⟩
  have hcont : ∀ r' : ExtendReq, r'.prefixLen = r.prefixLen → r'.seqLen = r.seqLen →
      r'.lastLoc = Allocator.lastLoc
        (rowOf ps (List.replicate (pageCount ps r.prefixLen) b) r.prefixLen) →
      r'.extendSlots ps pages = (List.range (r.seqLen - r.prefixLen)).map fun j =>
        slotAt ps (List.replicate (pageCount ps r.prefixLen) b ++ pages) (r.prefixLen + j) := by
    intro r' hpre hseq hlast
    have h := Allocator.extendSlots_row pages hps hrow (r := r')
      (by rw [rowOf_length, hpre]) (by rw [hpre, hseq]; exact hle) hlast
    rw [hseq, Allocator.rowOf_continue hps hrow (by rw [rowOf_length]; exact hle),
      rowOf_length] at h
    exact append_cancel_left h
  by_cases hmod : r.prefixLen % ps = 0
  · rw [extendSlots_aligned hps hmod (Allocator.lastLoc
      (rowOf ps (List.replicate (pageCount ps r.prefixLen) b) r.prefixLen))]
    exact hcont _ rfl rfl rfl
  · refine hcont r rfl rfl ?_
    have hpos : 0 < r.prefixLen := by
      rcases Nat.eq_zero_or_pos r.prefixLen with hz | hz
      · rw [hz, Nat.zero_mod] at hmod
        exact absurd rfl hmod
      · exact hz
    have hne : rowOf ps (List.replicate (pageCount ps r.prefixLen) b) r.prefixLen ≠ [] :=
      ne_nil_of_length_pos (by rw [rowOf_length]; exact hpos)
    have hcount : (r.prefixLen - 1) / ps < pageCount ps r.prefixLen := by
      rw [Nat.div_lt_iff_lt_mul hps]
      have := le_pageCount_mul hps r.prefixLen
      omega
    have hoff : (r.prefixLen - 1) % ps = r.prefixLen % ps - 1 := by
      have hdm := Nat.div_add_mod r.prefixLen ps
      have hlt := Nat.mod_lt r.prefixLen hps
      rw [show r.prefixLen - 1 = ps * (r.prefixLen / ps) + (r.prefixLen % ps - 1) by omega,
        Nat.mul_add_mod, Nat.mod_eq_of_lt (by omega)]
    rw [hb hmod, Allocator.lastLoc, hrow.getLast hne, rowOf_length, slotAt,
      getD_eq_getElem?_getD, getElem?_replicate_of_lt hcount, hoff]
    rfl

theorem lastLoc_base (hps : 0 < ps) {n k : Nat} (hk : k % ps ≠ 0)
    (h : (n + 1) % ps = k % ps) : n = n / ps * ps + (k % ps - 1) := by
  have hdm := Nat.div_add_mod n ps
  have hlt := Nat.mod_lt n hps
  rw [Nat.mul_comm] at hdm
  have hmod : (n + 1) % ps = n % ps + 1 := by
    by_cases hlast : n % ps + 1 = ps
    · have hz : (n + 1) % ps = 0 := by
        rw [Nat.add_mod]
        by_cases hone : ps = 1
        · rw [hone, Nat.mod_one]
        · rw [Nat.mod_eq_of_lt (show 1 < ps by omega), hlast, Nat.mod_self]
      rw [hz] at h
      exact absurd h.symm hk
    · rw [show n + 1 = ps * (n / ps) + (n % ps + 1) by rw [Nat.mul_comm]; omega,
        Nat.mul_add_mod, Nat.mod_eq_of_lt (by omega)]
  omega

/-- Two runs of the kernel on the same lengths go in lockstep over the pages they are given. -/
theorem extendSlots_lockstep (hps : 0 < ps) {Old : Nat → Nat → Prop} (r r' : ExtendReq)
    (hpre : r'.prefixLen = r.prefixLen) (hseq : r'.seqLen = r.seqLen)
    (hle : r.prefixLen ≤ r.seqLen)
    (hold : r.prefixLen % ps ≠ 0 → ∃ b b', Old b b' ∧
      r.lastLoc = (b * ps + (r.prefixLen % ps - 1) : Nat) ∧
      r'.lastLoc = (b' * ps + (r.prefixLen % ps - 1) : Nat))
    {F W : List Nat} (hF : F.length = r.newPages ps) (hW : W.length = r.newPages ps) :
    (r.extendSlots ps F).length = (r'.extendSlots ps W).length ∧
      Lockstep ps Old ((r.extendSlots ps F).zip (r'.extendSlots ps W)) (F.zip W) := by
  obtain ⟨b, b', hb⟩ : ∃ b b', r.prefixLen % ps ≠ 0 → Old b b' ∧
      r.lastLoc = (b * ps + (r.prefixLen % ps - 1) : Nat) ∧
      r'.lastLoc = (b' * ps + (r.prefixLen % ps - 1) : Nat) := by
    by_cases hmod : r.prefixLen % ps = 0
    · exact ⟨0, 0, fun h => absurd hmod h⟩
    · obtain ⟨b, b', h⟩ := hold hmod
      exact ⟨b, b', fun _ => h⟩
  have hmono : pageCount ps r.prefixLen ≤ pageCount ps r.seqLen := Nat.div_le_div_right (by omega)
  have hlt := pageCount_mul_lt hps r.seqLen
  rw [ExtendReq.newPages] at hF hW
  rw [extendSlots_eq hps hle fun h => (hb h).2.1, extendSlots_eq hps (r := r') (b := b')
    (by omega) (fun h => by rw [hpre] at h ⊢; exact (hb h).2.2), hpre, hseq, zip_map']
  refine ⟨by simp, ?_, ?_, ?_⟩
  · rintro w hw
    obtain ⟨j, _, rfl⟩ := mem_map.mp hw
    rw [slotAt_mod, slotAt_mod]
  · rintro w hw
    obtain ⟨j, hj, rfl⟩ := mem_map.mp hw
    have hj := mem_range.mp hj
    simp only [slotAt_div hps]
    by_cases hpage : (r.prefixLen + j) / ps < pageCount ps r.prefixLen
    · -- still on the page of the last slot
      refine .inr ?_
      have hmod : r.prefixLen % ps ≠ 0 := by
        intro hz
        obtain ⟨k, hk⟩ := Nat.dvd_of_mod_eq_zero hz
        rw [hk, Nat.mul_comm ps k, pageCount_mul hps, Nat.div_lt_iff_lt_mul hps] at hpage
        omega
      have hrep : ∀ c pages, (List.replicate (pageCount ps r.prefixLen) c ++ pages).getD
          ((r.prefixLen + j) / ps) 0 = c := by
        intro c pages
        rw [getD_eq_getElem?_getD, getElem?_append_left (by simpa using hpage),
          getElem?_replicate_of_lt hpage]
        rfl
      rw [hrep, hrep]
      exact (hb hmod).1
    · refine .inl ?_
      have hlast : (r.prefixLen + j) / ps < pageCount ps r.seqLen := by
        rw [Nat.div_lt_iff_lt_mul hps]
        have := le_pageCount_mul hps r.seqLen
        omega
      have hnew : ∀ c (pages : List Nat),
        (List.replicate (pageCount ps r.prefixLen) c ++ pages).getD
          ((r.prefixLen + j) / ps) 0 =
            pages.getD ((r.prefixLen + j) / ps - pageCount ps r.prefixLen) 0 := by
        intro c pages
        rw [getD_eq_getElem?_getD, getElem?_append_right (by simpa using hpage),
          length_replicate, getD_eq_getElem?_getD]
      rw [hnew, hnew, getD_eq_getElem _ _ (by omega), getD_eq_getElem _ _ (by omega)]
      exact mem_iff_getElem.mpr ⟨_, by rw [length_zip]; omega, getElem_zip⟩
  · rintro pq hpq
    obtain ⟨i, hi, rfl⟩ := mem_iff_getElem.mp hpq
    rw [length_zip] at hi
    -- the first slot of the page
    have hin : (pageCount ps r.prefixLen + i + 1) * ps ≤ pageCount ps r.seqLen * ps :=
      Nat.mul_le_mul_right _ (by omega)
    rw [Nat.add_mul, Nat.one_mul] at hin
    have hfrom := le_pageCount_mul hps r.prefixLen
    have hmul : pageCount ps r.prefixLen * ps ≤ (pageCount ps r.prefixLen + i) * ps :=
      Nat.mul_le_mul_right _ (by omega)
    have hnew : ∀ c (pages : List Nat), (List.replicate (pageCount ps r.prefixLen) c ++ pages).getD
        (pageCount ps r.prefixLen + i) 0 = pages.getD i 0 := by
      intro c pages
      rw [getD_eq_getElem?_getD, getElem?_append_right (by simp),
        length_replicate, Nat.add_sub_cancel_left, getD_eq_getElem?_getD]
    refine ⟨_, mem_map.mpr ⟨(pageCount ps r.prefixLen + i) * ps - r.prefixLen,
      mem_range.mpr (by omega), rfl⟩, ?_⟩
    rw [Nat.add_sub_of_le (by omega), slotAt_div hps, slotAt_div hps,
      Nat.mul_div_cancel _ hps, hnew, hnew, getElem_zip,
      getD_eq_getElem _ _ (by omega), getD_eq_getElem _ _ (by omega)]

theorem perRequest_lockstep (hps : 0 < ps) {Old : Nat → Nat → Prop} (tr : Int → Int)
    {reqs : List ExtendReq}
    (hreqs : ∀ r ∈ reqs, r.prefixLen ≤ r.seqLen ∧ (r.prefixLen % ps ≠ 0 → ∃ b b', Old b b' ∧
      r.lastLoc = (b * ps + (r.prefixLen % ps - 1) : Nat) ∧
      tr r.lastLoc = (b' * ps + (r.prefixLen % ps - 1) : Nat))) :
    ∀ {F W : List Nat}, getNumNewPages ps reqs ≤ F.length → getNumNewPages ps reqs ≤ W.length →
      (perRequest ps (ExtendReq.extendSlots ps) reqs F).flatten.length =
          (perRequest ps (ExtendReq.extendSlots ps)
            (reqs.map fun r => { r with lastLoc := tr r.lastLoc }) W).flatten.length ∧
        Lockstep ps Old ((perRequest ps (ExtendReq.extendSlots ps) reqs F).flatten.zip
            (perRequest ps (ExtendReq.extendSlots ps)
              (reqs.map fun r => { r with lastLoc := tr r.lastLoc }) W).flatten)
          ((F.take (getNumNewPages ps reqs)).zip (W.take (getNumNewPages ps reqs))) := by
  induction reqs with
  | nil =>
    intro F W _ _
    simpa [perRequest, getNumNewPages] using Lockstep.nil
  | cons r reqs ih =>
    intro F W hF hW
    have hsum : getNumNewPages ps (r :: reqs) = r.newPages ps + getNumNewPages ps reqs := rfl
    rw [hsum] at hF hW ⊢
    obtain ⟨hle, hold⟩ := hreqs r (mem_cons_self ..)
    obtain ⟨hlen, hone⟩ := extendSlots_lockstep hps r
      { r with lastLoc := tr r.lastLoc } rfl rfl hle hold
      (F := F.take (r.newPages ps)) (W := W.take (r.newPages ps))
      (by rw [length_take]; omega) (by rw [length_take]; omega)
    obtain ⟨hlens, hrest⟩ := ih (fun r' hr' => hreqs r' (mem_cons_of_mem _ hr'))
      (F := F.drop (r.newPages ps)) (W := W.drop (r.newPages ps))
      (by rw [length_drop]; omega) (by rw [length_drop]; omega)
    have hnew : ({ r with lastLoc := tr r.lastLoc } : ExtendReq).newPages ps = r.newPages ps := rfl
    simp only [perRequest, map_cons, flatten_cons, hnew]
    refine ⟨by rw [length_append, length_append, hlen, hlens], ?_⟩
    rw [zip_append hlen, take_add, take_add, zip_append (by
      rw [length_take, length_take]; omega)]
    exact hone.append hrest

end Kernels

/-! ## Section 2: The invariant -/

/-- `prs` pairs full pages with sliding-window pages, `live` are the full pages in use. -/
structure SwaInv (cfg : SwaConfig) (s : SwaAllocator) (prs : List (Nat × Nat)) (live : List Nat) :
    Prop where
  paired : Paired cfg.pageSize s.mapping prs
  swa_pages : (s.swaAttn.pages cfg.swa ++ prs.map Prod.snd).Perm
    (List.range' 1 cfg.swa.numPages)
  full_pages : (s.fullAttn.pages cfg.full ++ live).Perm (List.range' 1 cfg.full.numPages)
  fst_live : ∀ pq ∈ prs, pq.1 ∈ live
  full_group : s.fullAttn.inFreeGroup = false
  swa_group : s.swaAttn.inFreeGroup = false
  full_tidy : s.fullAttn.Tidy cfg.full
  swa_tidy : s.swaAttn.Tidy cfg.swa
  pending : s.inFreeGroup = true → (∀ x ∈ s.freeGroup.flatten, x / cfg.pageSize ∈ live) ∧
    (cfg.pageSize = 1 → s.freeGroup.flatten.Nodup)

namespace SwaInv

variable {cfg : SwaConfig} {s : SwaAllocator} {prs : List (Nat × Nat)} {live : List Nat}

theorem init (cfg : SwaConfig) : SwaInv cfg (SwaAllocator.clear cfg) [] [] := by
  refine ⟨.empty, ?_, ?_, by simp, rfl, rfl, fun _ => rfl, fun _ => rfl, ?_⟩
  · simp [SwaAllocator.clear, Allocator.clear, Allocator.pages]
  · simp [SwaAllocator.clear, Allocator.clear, Allocator.pages]
  · intro h
    cases h

theorem mem_live (h : SwaInv cfg s prs live) {p : Nat} (hp : 1 ≤ p) (hle : p ≤ cfg.full.numPages)
    (hfree : p ∉ s.fullAttn.pages cfg.full) : p ∈ live := by
  have hmem : p ∈ List.range' 1 cfg.full.numPages := mem_range'_1.mpr ⟨hp, by omega⟩
  rcases mem_append.mp (h.full_pages.mem_iff.mpr hmem) with hp | hp
  · exact absurd hp hfree
  · exact hp

/-- Both sides hand out pages, and the table is written in lockstep. -/
theorem bind (h : SwaInv cfg s prs live) {full swa : Allocator} {F W : List Nat}
    {ws : List (Nat × Nat)} (hfull : Took cfg.full s.fullAttn full F)
    (hswa : Took cfg.swa s.swaAttn swa W) (hlen : F.length = W.length)
    (hws : Lockstep cfg.pageSize (fun p q => (p, q) ∈ prs) ws (F.zip W)) :
    SwaInv cfg
      { s with fullAttn := full, swaAttn := swa, mapping := scatter s.mapping ws }
      (prs ++ F.zip W) (live ++ F) := by
  have hfst : (F.zip W).map Prod.fst = F := map_fst_zip hlen.le
  have hsnd : (F.zip W).map Prod.snd = W := map_snd_zip hlen.ge
  have hfullPages : (full.pages cfg.full ++ (live ++ F)).Perm
      (List.range' 1 cfg.full.numPages) := by
    refine List.Perm.trans ?_ h.full_pages
    refine List.Perm.trans ?_ (hfull.perm.append_right live)
    rw [← append_assoc]
    exact perm_append_comm.trans (append_assoc .. ▸ .refl _)
  have hswaPages : (swa.pages cfg.swa ++ (prs.map Prod.snd ++ W)).Perm
      (List.range' 1 cfg.swa.numPages) := by
    refine List.Perm.trans ?_ h.swa_pages
    refine List.Perm.trans ?_ (hswa.perm.append_right _)
    rw [← append_assoc]
    exact perm_append_comm.trans (append_assoc .. ▸ .refl _)
  have hlive : (live ++ F).Nodup :=
    (nodup_append.mp (hfullPages.nodup_iff.mpr nodup_range')).2.1
  have hW : (prs.map Prod.snd ++ W).Nodup :=
    (nodup_append.mp (hswaPages.nodup_iff.mpr nodup_range')).2.1
  refine ⟨h.paired.bind hws ?_ ?_ ?_, ?_, hfullPages, ?_, hfull.group.trans h.full_group,
    hswa.group.trans h.swa_group, hfull.tidy h.full_tidy, hswa.tidy h.swa_tidy, ?_⟩
  · rw [map_append, hfst]
    refine nodup_append.mpr ⟨h.paired.fst_nodup, (nodup_append.mp hlive).2.1, ?_⟩
    intro p hp p' hp'
    obtain ⟨pq, hpq, rfl⟩ := mem_map.mp hp
    exact (nodup_append.mp hlive).2.2 _ (h.fst_live pq hpq) _ hp'
  · rw [map_append, hsnd]
    exact hW
  · intro pq hpq
    have hq : pq.2 ∈ List.range' 1 cfg.swa.numPages := by
      refine hswaPages.mem_iff.mp (mem_append_right _ (mem_append_right _ ?_))
      exact (of_mem_zip hpq).2
    exact (mem_range'_1.mp hq).1
  · rw [map_append, hsnd]
    exact hswaPages
  · intro pq hpq
    rcases mem_append.mp hpq with hpq | hpq
    · exact mem_append_left _ (h.fst_live pq hpq)
    · exact mem_append_right _ (of_mem_zip hpq).1
  · intro hgroup
    obtain ⟨hx, hnodup⟩ := h.pending hgroup
    exact ⟨fun x hm => mem_append_left _ (hx x hm), hnodup⟩

theorem unchanged (h : SwaInv cfg s prs live) {full swa : Allocator}
    (hfull : Took cfg.full s.fullAttn full []) (hswa : Took cfg.swa s.swaAttn swa []) :
    SwaInv cfg { s with fullAttn := full, swaAttn := swa } prs live :=
  ⟨h.paired, (hswa.perm.append_right _).trans h.swa_pages,
    (hfull.perm.append_right _).trans h.full_pages, h.fst_live, hfull.group.trans h.full_group,
    hswa.group.trans h.swa_group, hfull.tidy h.full_tidy, hswa.tidy h.swa_tidy, h.pending⟩

/-! ## Section 3: Freeing -/

theorem freedPages_eq (size : Nat) (idx : List Nat) :
    Allocator.freedPages (cfg.pool size) idx = SwaAllocator.touchedPages cfg idx := by
  unfold Allocator.freedPages SwaAllocator.touchedPages SwaConfig.pool
  by_cases hone : cfg.pageSize = 1 <;> simp [hone]

theorem touchedPages_nodup {idx : List Nat} (h : cfg.pageSize = 1 → idx.Nodup) :
    (SwaAllocator.touchedPages cfg idx).Nodup := by
  unfold SwaAllocator.touchedPages
  split
  · next hone => exact h hone
  · exact (Allocator.unique_perm _).nodup_iff.mpr (nodup_dedup _)

theorem mem_touchedPages {idx : List Nat} {p : Nat} :
    p ∈ SwaAllocator.touchedPages cfg idx ↔ ∃ x ∈ idx, x / cfg.pageSize = p := by
  unfold SwaAllocator.touchedPages
  split
  · next hone => simp [hone]
  · rw [(Allocator.unique_perm _).mem_iff, mem_dedup, mem_map]

theorem freedPages_partners (h : SwaInv cfg s prs live) {pgs : List Nat} (hpgs : pgs.Nodup) :
    (Allocator.freedPages cfg.swa
      (((expand cfg.pageSize pgs).map s.mapping).filter (0 < ·))).Perm (partners pgs prs) := by
  rw [SwaConfig.swa, freedPages_eq]
  refine (perm_ext_iff_of_nodup (touchedPages_nodup fun hone => ?_)
    (h.paired.partners_nodup pgs)).mpr fun q => ?_
  · -- one slot a page: the values themselves, which differ
    refine List.Nodup.of_map (fun y => y) ?_
    rw [map_id', filter_map]
    refine List.Nodup.map_on ?_ (List.Nodup.filter _ ?_)
    · intro x hx y _ hxy
      have hx := (mem_filter.mp hx).2
      simp only [Function.comp_apply, decide_eq_true_eq] at hx
      exact h.paired.injective hx.ne' hxy
    · rw [hone, expand_one]
      exact hpgs
  · rw [mem_touchedPages, h.paired.mem_partners cfg.pageSize_pos]

theorem freeSwa (h : SwaInv cfg s prs live) {idx : List Nat}
    (hnodup : cfg.pageSize = 1 → idx.Nodup) :
    SwaInv cfg (s.freeSwa cfg idx) (keepPairs (SwaAllocator.touchedPages cfg idx) prs) live := by
  have hsub : (keepPairs (SwaAllocator.touchedPages cfg idx) prs).Sublist prs :=
    filter_sublist
  unfold SwaAllocator.freeSwa
  split
  · next hnil =>
    have hkeep : keepPairs (SwaAllocator.touchedPages cfg idx) prs = prs := by
      refine filter_eq_self.mpr fun pq _ => ?_
      simp [mem_touchedPages, hnil]
    rw [hkeep]
    exact h
  · obtain ⟨hpages, hgroup⟩ := Allocator.pages_free_of_perm h.swa_group
      (h.freedPages_partners (touchedPages_nodup hnodup))
    refine ⟨h.paired.release cfg.pageSize_pos _, ?_, h.full_pages,
      fun pq hpq => h.fst_live pq (hsub.subset hpq), h.full_group, hgroup, h.full_tidy,
      h.swa_tidy.free _, h.pending⟩
    refine (hpages.append_right _).trans ?_
    rw [append_assoc]
    exact ((partners_perm _ prs).append_left _).trans h.swa_pages

theorem freeFull (h : SwaInv cfg s prs live) (hgroup : s.inFreeGroup = false) {idx : List Nat}
    (hlive : ∀ x ∈ idx, x / cfg.pageSize ∈ live) (hnodup : cfg.pageSize = 1 → idx.Nodup)
    (hprs : ∀ pq ∈ prs, pq.1 ∉ SwaAllocator.touchedPages cfg idx) :
    SwaInv cfg { s with fullAttn := s.fullAttn.free cfg.full idx } prs
      (live.filter (· ∉ SwaAllocator.touchedPages cfg idx)) := by
  have hfreed : (Allocator.freedPages cfg.full idx).Perm (SwaAllocator.touchedPages cfg idx) := by
    rw [SwaConfig.full, freedPages_eq]
  obtain ⟨hpages, hout⟩ := Allocator.pages_free_of_perm h.full_group hfreed
  have hliveNodup : live.Nodup :=
    (nodup_append.mp (h.full_pages.nodup_iff.mpr nodup_range')).2.1
  -- the pages in use are those given back and the others
  have hsplit : (SwaAllocator.touchedPages cfg idx ++
      live.filter (· ∉ SwaAllocator.touchedPages cfg idx)).Perm live := by
    have hgiven : (live.filter (· ∈ SwaAllocator.touchedPages cfg idx)).Perm
        (SwaAllocator.touchedPages cfg idx) := by
      refine (perm_ext_iff_of_nodup (hliveNodup.filter _)
        (touchedPages_nodup hnodup)).mpr fun p => ?_
      rw [mem_filter, decide_eq_true_eq, and_iff_right_iff_imp, mem_touchedPages]
      rintro ⟨x, hx, rfl⟩
      exact hlive x hx
    refine (hgiven.symm.append_right _).trans ?_
    simpa using filter_append_perm
      (fun p => decide (p ∈ SwaAllocator.touchedPages cfg idx)) live
  refine ⟨h.paired, h.swa_pages, ?_, ?_, hout, h.swa_group, h.full_tidy.free _, h.swa_tidy, ?_⟩
  · refine (hpages.append_right _).trans ?_
    rw [append_assoc]
    exact (hsplit.append_left _).trans h.full_pages
  · intro pq hpq
    exact mem_filter.mpr ⟨h.fst_live pq hpq, by simpa using hprs pq hpq⟩
  · intro htrue
    rw [show s.inFreeGroup = true from htrue] at hgroup
    cases hgroup

theorem available_le {size : Nat} {a : Allocator} {used : List Nat}
    (hpages : (a.pages (cfg.pool size) ++ used).Perm (List.range' 1 (cfg.pool size).numPages))
    (hgroup : a.inFreeGroup = false) : a.availableSize (cfg.pool size) ≤ size := by
  have hlen := hpages.length_eq
  simp only [Allocator.pages, hgroup, Bool.false_eq_true, if_false, append_nil,
    length_append, length_range'] at hlen
  have hnum : (cfg.pool size).numPages * cfg.pageSize ≤ size := by
    unfold PoolConfig.numPages SwaConfig.pool
    by_cases hone : cfg.pageSize = 1
    · simp [hone]
    · simp only [hone, if_false]
      exact Nat.div_mul_le_self _ _
  refine le_trans ?_ hnum
  exact Nat.mul_le_mul_right _ (by omega)

theorem freeNow (h : SwaInv cfg s prs live) (hgroup : s.inFreeGroup = false) {idx : List Nat}
    (hlive : ∀ x ∈ idx, x / cfg.pageSize ∈ live) (hnodup : cfg.pageSize = 1 → idx.Nodup) :
    ∃ s' prs' live', s.free cfg idx = some s' ∧ SwaInv cfg s' prs' live' := by
  unfold SwaAllocator.free
  split
  · exact ⟨s, prs, live, rfl, h⟩
  · next hne =>
    have hnot : ¬ s.inFreeGroup = true := by simp [hgroup]
    have hcomm : ({ s with fullAttn := s.fullAttn.free cfg.full idx } : SwaAllocator).freeSwa cfg
        idx = { s.freeSwa cfg idx with fullAttn := s.fullAttn.free cfg.full idx } := by
      simp only [SwaAllocator.freeSwa, hne, if_false]
    have hfullEq : (s.freeSwa cfg idx).fullAttn = s.fullAttn := by
      simp only [SwaAllocator.freeSwa, hne, if_false]
    have hgroup' : (s.freeSwa cfg idx).inFreeGroup = false := by
      simp only [SwaAllocator.freeSwa, hne, if_false]
      exact hgroup
    have h' := (h.freeSwa hnodup).freeFull hgroup' hlive hnodup fun pq hpq => by
      simpa using (mem_filter.mp hpq).2
    rw [hfullEq, ← hcomm] at h'
    dsimp only
    rw [if_neg hnot, if_pos ⟨available_le h'.full_pages h'.full_group,
      available_le h'.swa_pages h'.swa_group⟩]
    exact ⟨_, _, _, rfl, h'⟩

theorem freeLater (h : SwaInv cfg s prs live) (hgroup : s.inFreeGroup = true) {idx : List Nat}
    (hlive : ∀ x ∈ idx, x / cfg.pageSize ∈ live)
    (hfresh : ∀ x ∈ idx, ∀ y ∈ s.freeGroup.flatten, y / cfg.pageSize ≠ x / cfg.pageSize)
    (hnodup : cfg.pageSize = 1 → idx.Nodup) :
    ∃ s', s.free cfg idx = some s' ∧ SwaInv cfg s' prs live := by
  unfold SwaAllocator.free
  split
  · exact ⟨s, rfl, h⟩
  · dsimp only
    rw [if_pos ⟨available_le h.full_pages h.full_group, available_le h.swa_pages h.swa_group⟩]
    refine ⟨_, rfl, h.paired, h.swa_pages, h.full_pages, h.fst_live, h.full_group, h.swa_group,
      h.full_tidy, h.swa_tidy, fun _ => ?_⟩
    obtain ⟨hx, hnd⟩ := h.pending hgroup
    rw [flatten_append, flatten_singleton]
    constructor
    · intro x hm
      rcases mem_append.mp hm with hm | hm
      · exact hx x hm
      · exact hlive x hm
    · intro hone
      refine nodup_append.mpr ⟨hnd hone, hnodup hone, ?_⟩
      rintro x hm y hy rfl
      exact hfresh x hy x hm rfl

/-! ## Section 4: Allocation -/

theorem setFullToSwaMapping_eq (s : SwaAllocator) {f w : List Nat} (hlen : f.length = w.length) :
    s.setFullToSwaMapping f w = some { s with mapping := scatter s.mapping (f.zip w) } := by
  unfold SwaAllocator.setFullToSwaMapping
  split
  · next hnil =>
    rw [hnil]
    rfl
  · rfl

theorem alloc (h : SwaInv cfg s prs live) (hone : cfg.pageSize = 1) (n : Nat) :
    ∃ s' out prs' live', s.alloc cfg n = some (s', out) ∧ SwaInv cfg s' prs' live' ∧
      (out = none → s' = s) := by
  unfold SwaAllocator.alloc
  rw [if_neg (by simpa using hone)]
  split
  · exact ⟨s, none, prs, live, rfl, h, fun _ => rfl⟩
  split
  · exact ⟨s, none, prs, live, rfl, h, fun _ => rfl⟩
  next hfull hswa =>
  have hkind : ∀ size, (cfg.pool size).kind = .token := by
    intro size
    simp [SwaConfig.pool, hone]
  obtain ⟨full, F, hF, hFlen, hFtook⟩ :=
    Allocator.alloc_available (hkind _) h.full_tidy (not_lt.mp hfull)
  obtain ⟨swa, W, hW, hWlen, hWtook⟩ :=
    Allocator.alloc_available (hkind _) h.swa_tidy (not_lt.mp hswa)
  have hF : s.fullAttn.alloc cfg.full n = (full, some F) := hF
  have hW : s.swaAttn.alloc cfg.swa n = (swa, some W) := hW
  have hlen : F.length = W.length := hFlen.trans hWlen.symm
  simp only [hF, hW, setFullToSwaMapping_eq _ hlen, Option.bind_eq_bind, Option.bind_some]
  refine ⟨_, some F, _, _, rfl, h.bind hFtook hWtook hlen ?_, by simp⟩
  rw [hone]
  exact .single

theorem base_pages (h : SwaInv cfg s prs live) {r : ExtendReq} (hr : s.Continuable cfg r) :
    r.prefixLen ≤ r.seqLen ∧ (r.prefixLen % cfg.pageSize ≠ 0 → ∃ b b', (b, b') ∈ prs ∧
      r.lastLoc = (b * cfg.pageSize + (r.prefixLen % cfg.pageSize - 1) : Nat) ∧
      s.translateLoc r.lastLoc =
        (b' * cfg.pageSize + (r.prefixLen % cfg.pageSize - 1) : Nat)) := by
  refine ⟨hr.1, fun hmod => ?_⟩
  obtain ⟨hnonneg, hoff, hne⟩ := hr.2 hmod
  have hps := cfg.pageSize_pos
  have hoff' : (s.mapping r.lastLoc.toNat + 1) % cfg.pageSize = r.prefixLen % cfg.pageSize := by
    rw [← hoff, Nat.add_mod, h.paired.offset hne, ← Nat.add_mod]
  refine ⟨_, _, h.paired.page hne, ?_, ?_⟩
  · rw [← lastLoc_base hps hmod hoff]
    exact (Int.toNat_of_nonneg hnonneg).symm
  · rw [← lastLoc_base hps hmod hoff', SwaAllocator.translateLoc, if_neg (by omega)]

theorem getNumNewPages_translate (s : SwaAllocator) (ps : Nat) (reqs : List ExtendReq) :
    getNumNewPages ps (s.translate reqs) = getNumNewPages ps reqs := by
  unfold getNumNewPages SwaAllocator.translate
  rw [map_map]
  rfl

theorem getNumNewPagesDecode_translate (s : SwaAllocator) (ps : Nat) (reqs : List ExtendReq) :
    getNumNewPagesDecode ps (s.translate reqs) = getNumNewPagesDecode ps reqs := by
  unfold getNumNewPagesDecode SwaAllocator.translate
  rw [map_map]
  rfl

theorem bindBatch (h : SwaInv cfg s prs live) {reqs : List ExtendReq}
    (hreqs : ∀ r ∈ reqs, s.Continuable cfg r) {full swa : Allocator} {F W : List Nat}
    (hF : getNumNewPages cfg.pageSize reqs ≤ F.length)
    (hW : getNumNewPages cfg.pageSize reqs ≤ W.length)
    (hfull : Took cfg.full s.fullAttn full (F.take (getNumNewPages cfg.pageSize reqs)))
    (hswa : Took cfg.swa s.swaAttn swa (W.take (getNumNewPages cfg.pageSize reqs))) :
    (perRequest cfg.pageSize (ExtendReq.extendSlots cfg.pageSize) reqs F).flatten.length =
        (perRequest cfg.pageSize (ExtendReq.extendSlots cfg.pageSize)
          (s.translate reqs) W).flatten.length ∧
      ∃ prs' live', SwaInv cfg
        { s with
          fullAttn := full
          swaAttn := swa
          mapping := scatter s.mapping
            ((perRequest cfg.pageSize (ExtendReq.extendSlots cfg.pageSize) reqs F).flatten.zip
              (perRequest cfg.pageSize (ExtendReq.extendSlots cfg.pageSize)
                (s.translate reqs) W).flatten) } prs' live' := by
  obtain ⟨hlen, hlock⟩ := perRequest_lockstep cfg.pageSize_pos s.translateLoc
    (fun r hr => h.base_pages (hreqs r hr)) hF hW
  refine ⟨hlen, _, _, h.bind hfull hswa ?_ hlock⟩
  rw [length_take, length_take]
  omega

theorem allocExtend (h : SwaInv cfg s prs live) (hps : 1 < cfg.pageSize) {reqs : List ExtendReq}
    (hreqs : ∀ r ∈ reqs, s.Continuable cfg r) :
    ∃ s' out prs' live', s.allocExtend cfg reqs = some (s', out) ∧ SwaInv cfg s' prs' live' ∧
      (out = none → s' = s) := by
  unfold SwaAllocator.allocExtend
  rw [if_neg (not_not.mpr hps)]
  dsimp only
  split
  · exact ⟨s, none, prs, live, rfl, h, fun _ => rfl⟩
  next havail =>
  simp only [SwaAllocator.newPagesAvailable, decide_eq_true_eq, not_not] at havail
  obtain ⟨full, F, hF, hFlen, hFtook⟩ :=
    Allocator.allocExtend_available h.full_tidy _ havail.1
  obtain ⟨swa, W, hW, hWlen, hWtook⟩ :=
    Allocator.allocExtend_available h.swa_tidy (s.translate reqs)
      (by rw [getNumNewPages_translate]; exact havail.2)
  rw [getNumNewPages_translate] at hWlen hWtook
  obtain ⟨hlen, prs', live', h'⟩ := h.bindBatch hreqs hFlen hWlen hFtook hWtook
  have hset := setFullToSwaMapping_eq { s with fullAttn := full, swaAttn := swa } hlen
  refine ⟨_, some (perRequest cfg.pageSize (ExtendReq.extendSlots cfg.pageSize) reqs F).flatten,
    prs', live', ?_, h', by simp⟩
  rw [hF, hW]
  exact congrArg (Option.bind · _) hset

theorem allocDecode_both (h : SwaInv cfg s prs live) (hps : 1 < cfg.pageSize)
    {reqs : List (Nat × Int)}
    (hreqs : ∀ r ∈ reqs, 1 ≤ r.1 ∧ s.Continuable cfg (SwaAllocator.decodeReq r))
    (hfull : getNumNewPagesDecode cfg.pageSize (reqs.map SwaAllocator.decodeReq) ≤
      s.fullAttn.availableSize cfg.full / cfg.pageSize)
    (hswa : getNumNewPagesDecode cfg.pageSize (reqs.map SwaAllocator.decodeReq) ≤
      s.swaAttn.availableSize cfg.swa / cfg.pageSize) :
    ∃ s' out prs' live', s.allocDecode cfg reqs = some (s', some out) ∧
      SwaInv cfg s' prs' live' := by
  have hseq : ∀ r ∈ reqs.map SwaAllocator.decodeReq, r.seqLen = r.prefixLen + 1 := by
    intro r hr
    obtain ⟨q, hq, rfl⟩ := mem_map.mp hr
    have := (hreqs q hq).1
    simp only [SwaAllocator.decodeReq]
    omega
  have hseq' : ∀ r ∈ s.translate (reqs.map SwaAllocator.decodeReq),
      r.seqLen = r.prefixLen + 1 := by
    intro r hr
    obtain ⟨q, hq, rfl⟩ := mem_map.mp hr
    exact hseq q hq
  have hcont : ∀ r ∈ reqs.map SwaAllocator.decodeReq, s.Continuable cfg r := by
    intro r hr
    obtain ⟨q, hq, rfl⟩ := mem_map.mp hr
    exact (hreqs q hq).2
  obtain ⟨hnum, hkernel⟩ := Allocator.perRequest_decode hps hseq
  obtain ⟨_, hkernel'⟩ := Allocator.perRequest_decode hps hseq'
  obtain ⟨full, F, hF, hFlen, hFtook⟩ :=
    Allocator.allocDecode_available h.full_tidy _ hfull
  obtain ⟨swa, W, hW, hWlen, hWtook⟩ :=
    Allocator.allocDecode_available h.swa_tidy
      (s.translate (reqs.map SwaAllocator.decodeReq))
      (by rw [getNumNewPagesDecode_translate]; exact hswa)
  rw [getNumNewPagesDecode_translate] at hWlen hWtook
  change getNumNewPagesDecode cfg.pageSize _ ≤ _ at hFlen hWlen
  change Took _ _ _ (F.take (getNumNewPagesDecode cfg.pageSize _)) at hFtook
  change Took _ _ _ (W.take (getNumNewPagesDecode cfg.pageSize _)) at hWtook
  rw [hnum] at hFlen hWlen hFtook hWtook
  obtain ⟨_, prs', live', h'⟩ := h.bindBatch hcont hFlen hWlen hFtook hWtook
  rw [← hkernel, ← hkernel'] at h'
  unfold SwaAllocator.allocDecode
  rw [if_neg (not_not.mpr hps)]
  dsimp only
  rw [hF, hW]
  exact ⟨_, _, prs', live', rfl, h'⟩

/-- A decode batch that one side has no pages for returns `None`; the other side may have given
pages. -/
theorem allocDecode_short (h : SwaInv cfg s prs live) (hps : 1 < cfg.pageSize)
    {reqs : List (Nat × Int)}
    (hshort : ¬ (getNumNewPagesDecode cfg.pageSize (reqs.map SwaAllocator.decodeReq) ≤
        s.fullAttn.availableSize cfg.full / cfg.pageSize ∧
      getNumNewPagesDecode cfg.pageSize (reqs.map SwaAllocator.decodeReq) ≤
        s.swaAttn.availableSize cfg.swa / cfg.pageSize)) :
    ∃ full swa F W,
      s.allocDecode cfg reqs = some ({ s with fullAttn := full, swaAttn := swa }, none) ∧
      Took cfg.full s.fullAttn full F ∧ Took cfg.swa s.swaAttn swa W ∧
      F.length = (if getNumNewPagesDecode cfg.pageSize (reqs.map SwaAllocator.decodeReq) ≤
        s.fullAttn.availableSize cfg.full / cfg.pageSize
        then getNumNewPagesDecode cfg.pageSize (reqs.map SwaAllocator.decodeReq) else 0) ∧
      W.length = (if getNumNewPagesDecode cfg.pageSize (reqs.map SwaAllocator.decodeReq) ≤
        s.swaAttn.availableSize cfg.swa / cfg.pageSize
        then getNumNewPagesDecode cfg.pageSize (reqs.map SwaAllocator.decodeReq) else 0) := by
  unfold SwaAllocator.allocDecode
  rw [if_neg (not_not.mpr hps)]
  dsimp only
  by_cases hfull : getNumNewPagesDecode cfg.pageSize (reqs.map SwaAllocator.decodeReq) ≤
      s.fullAttn.availableSize cfg.full / cfg.pageSize
  · have hswa := fun hswa => hshort ⟨hfull, hswa⟩
    obtain ⟨full, F, hF, hFlen, hFtook⟩ :=
      Allocator.allocDecode_available h.full_tidy _ hfull
    obtain ⟨swa, hW, hWtook⟩ := Allocator.allocDecode_unavailable h.swa_tidy
      (s.translate (reqs.map SwaAllocator.decodeReq))
      (by rw [getNumNewPagesDecode_translate]; exact hswa)
    rw [hF, hW, if_pos hfull, if_neg hswa]
    refine ⟨full, swa, _, [], rfl, hFtook, hWtook, ?_, rfl⟩
    rw [length_take]
    exact min_eq_left hFlen
  · obtain ⟨full, hF, hFtook⟩ :=
      Allocator.allocDecode_unavailable h.full_tidy _ hfull
    rw [hF, if_neg hfull]
    by_cases hswa : getNumNewPagesDecode cfg.pageSize (reqs.map SwaAllocator.decodeReq) ≤
        s.swaAttn.availableSize cfg.swa / cfg.pageSize
    · obtain ⟨swa, W, hW, hWlen, hWtook⟩ := Allocator.allocDecode_available h.swa_tidy
        (s.translate (reqs.map SwaAllocator.decodeReq))
        (by rw [getNumNewPagesDecode_translate]; exact hswa)
      rw [getNumNewPagesDecode_translate] at hWlen hWtook
      rw [hW, if_pos hswa]
      refine ⟨full, swa, [], _, rfl, hFtook, hWtook, rfl, ?_⟩
      rw [length_take]
      exact min_eq_left hWlen
    · obtain ⟨swa, hW, hWtook⟩ := Allocator.allocDecode_unavailable h.swa_tidy
        (s.translate (reqs.map SwaAllocator.decodeReq))
        (by rw [getNumNewPagesDecode_translate]; exact hswa)
      rw [hW, if_neg hswa]
      exact ⟨full, swa, [], [], rfl, hFtook, hWtook, rfl, rfl⟩

end SwaInv

/-! ## Section 5: Consistency and atomicity -/

namespace SwaAllocator

variable (cfg : SwaConfig)

/-- The table and the free lists agree, page by page. -/
structure Consistent (s : SwaAllocator) : Prop where
  /-- No two full slots share a sliding-window slot. -/
  injective : ∀ x y, s.mapping x ≠ 0 → s.mapping x = s.mapping y → x = y
  /-- Full slots are mapped into the sliding-window pool. -/
  in_pool : ∀ x, s.mapping x ≠ 0 →
    1 ≤ s.mapping x / cfg.pageSize ∧ s.mapping x / cfg.pageSize ≤ cfg.swa.numPages
  /-- The pages of the values are the sliding-window pages that are not free. -/
  values : ∀ q, 1 ≤ q → q ≤ cfg.swa.numPages →
    ((∃ x, s.mapping x ≠ 0 ∧ s.mapping x / cfg.pageSize = q) ↔
      q ∉ s.swaAttn.freePages ++ s.swaAttn.releasePages)
  /-- Free full slots are not mapped. -/
  free_unmapped : ∀ x, x / cfg.pageSize ∈ s.fullAttn.freePages ++ s.fullAttn.releasePages →
    s.mapping x = 0

/-- Both sides have the free pages they had, and the table is the same. -/
structure Unchanged (s s' : SwaAllocator) : Prop where
  full : (s'.fullAttn.freePages ++ s'.fullAttn.releasePages).Perm
    (s.fullAttn.freePages ++ s.fullAttn.releasePages)
  swa : (s'.swaAttn.freePages ++ s'.swaAttn.releasePages).Perm
    (s.swaAttn.freePages ++ s.swaAttn.releasePages)
  mapping : s'.mapping = s.mapping

/-- If the call returns `None`, it changes nothing. -/
def Atomic (s : SwaAllocator) (op : SwaOp) : Prop :=
  ∀ s', s.step cfg op = some (s', .noMemory) → s.Unchanged s'

end SwaAllocator

namespace SwaInv

variable {cfg : SwaConfig} {s : SwaAllocator} {prs : List (Nat × Nat)} {live : List Nat}

theorem pages_eq {pool : PoolConfig} {a : Allocator} (h : a.inFreeGroup = false) :
    a.pages pool = a.freePages ++ a.releasePages := by
  simp [Allocator.pages, h]

theorem consistent (h : SwaInv cfg s prs live) : s.Consistent cfg := by
  have hswa := h.swa_pages
  have hfull := h.full_pages
  rw [pages_eq h.swa_group] at hswa
  rw [pages_eq h.full_group] at hfull
  have hswaDisj := (nodup_append.mp (hswa.nodup_iff.mpr nodup_range')).2.2
  have hfullDisj := (nodup_append.mp (hfull.nodup_iff.mpr nodup_range')).2.2
  refine ⟨fun x y => h.paired.injective, ?_, ?_, ?_⟩
  · intro x hx
    have hmem := hswa.mem_iff.mp
      (mem_append_right _ (mem_map.mpr ⟨_, h.paired.page hx, rfl⟩))
    have := mem_range'_1.mp hmem
    omega
  · intro q hq hle
    rw [← h.paired.mem_snd]
    constructor
    · intro hmem hfree
      exact hswaDisj q hfree q hmem rfl
    · intro hfree
      have hmem : q ∈ List.range' 1 cfg.swa.numPages := mem_range'_1.mpr ⟨hq, by omega⟩
      exact (mem_append.mp (hswa.mem_iff.mpr hmem)).resolve_left hfree
  · intro x hx
    by_contra hne
    exact hfullDisj _ hx _ (h.fst_live _ (h.paired.page hne)) rfl

theorem unchanged_of_took (h : SwaInv cfg s prs live) {full swa : Allocator} {F W : List Nat}
    (hfull : Took cfg.full s.fullAttn full F) (hswa : Took cfg.swa s.swaAttn swa W) :
    s.Unchanged { s with fullAttn := full, swaAttn := swa } ↔ F = [] ∧ W = [] := by
  have hF := hfull.perm
  have hW := hswa.perm
  rw [pages_eq h.full_group, pages_eq (hfull.group.trans h.full_group)] at hF
  rw [pages_eq h.swa_group, pages_eq (hswa.group.trans h.swa_group)] at hW
  constructor
  · rintro ⟨hf, hw, _⟩
    have hfl := hF.length_eq
    have hwl := hW.length_eq
    have hfl' : (full.freePages ++ full.releasePages).length = _ := hf.length_eq
    have hwl' : (swa.freePages ++ swa.releasePages).length = _ := hw.length_eq
    rw [length_append] at hfl hwl
    exact ⟨length_eq_zero_iff.mp (by omega), length_eq_zero_iff.mp (by omega)⟩
  · rintro ⟨rfl, rfl⟩
    exact ⟨hF, hW, rfl⟩

theorem gave_nothing {n a b : Nat} (h : ¬ (n ≤ a ∧ n ≤ b)) :
    (if n ≤ a then n else 0) = 0 ∧ (if n ≤ b then n else 0) = 0 ↔ (n ≤ a ↔ n ≤ b) := by
  split <;> split <;> omega

/-- A valid call returns, is atomic exactly if it is balanced, and keeps the invariant then. -/
theorem step (h : SwaInv cfg s prs live) {op : SwaOp} (hvalid : s.Valid cfg op) :
    ∃ s' ret, s.step cfg op = some (s', ret) ∧ (s.Atomic cfg op ↔ s.Balanced cfg op) ∧
      (s.Balanced cfg op → ∃ prs' live', SwaInv cfg s' prs' live') := by
  -- calls that fail without a trace
  have hclean : ∀ {op : SwaOp} {s' : SwaAllocator} {ret : SwaReturn},
      s.step cfg op = some (s', ret) → (ret = .noMemory → s' = s) → s.Atomic cfg op := by
    intro op s' ret hstep hsame s₁ hs₁
    rw [hstep, Option.some.injEq, Prod.mk.injEq] at hs₁
    rw [← hs₁.1, hsame hs₁.2]
    exact ⟨.refl _, .refl _, rfl⟩
  have hlive : ∀ {idx : List Nat}, (∀ x ∈ idx, s.LivePage cfg (x / cfg.pageSize)) →
      ∀ x ∈ idx, x / cfg.pageSize ∈ live := fun hidx x hx =>
    h.mem_live (hidx x hx).1 (hidx x hx).2.1 (hidx x hx).2.2.1
  cases op with
  | alloc n =>
    obtain ⟨s', out, prs', live', heq, h', hnone⟩ := h.alloc hvalid n
    have hstep : s.step cfg (.alloc n) = some (SwaAllocator.returned (s', out)) := by
      simp [SwaAllocator.step, heq]
    cases out with
    | none => exact ⟨_, _, hstep, iff_of_true (hclean hstep fun _ => hnone rfl) trivial,
        fun _ => ⟨prs', live', h'⟩⟩
    | some out => exact ⟨_, _, hstep, iff_of_true (hclean hstep (by simp)) trivial,
        fun _ => ⟨prs', live', h'⟩⟩
  | allocExtend reqs =>
    obtain ⟨s', out, prs', live', heq, h', hnone⟩ := h.allocExtend hvalid.1 hvalid.2
    have hstep : s.step cfg (.allocExtend reqs) = some (SwaAllocator.returned (s', out)) := by
      simp [SwaAllocator.step, heq]
    cases out with
    | none => exact ⟨_, _, hstep, iff_of_true (hclean hstep fun _ => hnone rfl) trivial,
        fun _ => ⟨prs', live', h'⟩⟩
    | some out => exact ⟨_, _, hstep, iff_of_true (hclean hstep (by simp)) trivial,
        fun _ => ⟨prs', live', h'⟩⟩
  | allocDecode reqs =>
    by_cases hboth : getNumNewPagesDecode cfg.pageSize (reqs.map SwaAllocator.decodeReq) ≤
          s.fullAttn.availableSize cfg.full / cfg.pageSize ∧
        getNumNewPagesDecode cfg.pageSize (reqs.map SwaAllocator.decodeReq) ≤
          s.swaAttn.availableSize cfg.swa / cfg.pageSize
    · obtain ⟨s', out, prs', live', heq, h'⟩ :=
        h.allocDecode_both hvalid.1 hvalid.2 hboth.1 hboth.2
      have hstep : s.step cfg (.allocDecode reqs) = some (s', .indices out) := by
        simp [SwaAllocator.step, heq, SwaAllocator.returned]
      exact ⟨s', _, hstep,
        iff_of_true (hclean hstep (by simp)) (iff_of_true hboth.1 hboth.2),
        fun _ => ⟨prs', live', h'⟩⟩
    · obtain ⟨full, swa, F, W, heq, hF, hW, hFlen, hWlen⟩ := h.allocDecode_short hvalid.1 hboth
      have hstep : s.step cfg (.allocDecode reqs) =
          some ({ s with fullAttn := full, swaAttn := swa }, .noMemory) := by
        simp [SwaAllocator.step, heq, SwaAllocator.returned]
      -- a side that gave pages gave at least one
      have hnil : F = [] ∧ W = [] ↔ s.Balanced cfg (.allocDecode reqs) := by
        unfold SwaAllocator.Balanced
        rw [← length_eq_zero_iff, ← length_eq_zero_iff, hFlen, hWlen]
        exact gave_nothing hboth
      refine ⟨_, _, hstep, ?_, ?_⟩
      · rw [← hnil, ← h.unchanged_of_took hF hW]
        constructor
        · exact fun hatomic => hatomic _ hstep
        · intro hsame s₁ hs₁
          rw [hstep, Option.some.injEq, Prod.mk.injEq] at hs₁
          rw [← hs₁.1]
          exact hsame
      · intro hbal
        obtain ⟨rfl, rfl⟩ := hnil.mpr hbal
        exact ⟨prs, live, h.unchanged hF hW⟩
  | free idx =>
    cases hgroup : s.inFreeGroup with
    | false =>
      obtain ⟨s', prs', live', heq, h'⟩ := h.freeNow hgroup (hlive hvalid.1) hvalid.2
      have hstep : s.step cfg (.free idx) = some (s', .done) := by simp [SwaAllocator.step, heq]
      exact ⟨s', _, hstep, iff_of_true (hclean hstep (by simp)) trivial,
        fun _ => ⟨prs', live', h'⟩⟩
    | true =>
      obtain ⟨s', heq, h'⟩ := h.freeLater hgroup (hlive hvalid.1) (fun x hx y hy => by
        obtain ⟨l, hl, hyl⟩ := mem_flatten.mp hy
        exact (hvalid.1 x hx).2.2.2 hgroup l hl y hyl) hvalid.2
      have hstep : s.step cfg (.free idx) = some (s', .done) := by simp [SwaAllocator.step, heq]
      exact ⟨s', _, hstep, iff_of_true (hclean hstep (by simp)) trivial,
        fun _ => ⟨prs, live, h'⟩⟩
  | freeSwa idx =>
    have hstep : s.step cfg (.freeSwa idx) = some (s.freeSwa cfg idx, .done) := rfl
    exact ⟨_, _, hstep, iff_of_true (hclean hstep (by simp)) trivial,
      fun _ => ⟨_, _, h.freeSwa hvalid.2⟩⟩
  | freeGroupBegin =>
    have hstep : s.step cfg .freeGroupBegin = some (s.freeGroupBegin, .done) := rfl
    refine ⟨_, _, hstep, iff_of_true (hclean hstep (by simp)) trivial, fun _ => ⟨prs, live, ?_⟩⟩
    exact ⟨h.paired, h.swa_pages, h.full_pages, h.fst_live, h.full_group, h.swa_group,
      h.full_tidy, h.swa_tidy, fun _ => by simp [SwaAllocator.freeGroupBegin]⟩
  | freeGroupEnd =>
    obtain ⟨hx, hnodup⟩ := h.pending hvalid
    have hout : SwaInv cfg { s with inFreeGroup := false } prs live :=
      ⟨h.paired, h.swa_pages, h.full_pages, h.fst_live, h.full_group, h.swa_group, h.full_tidy,
        h.swa_tidy, fun htrue => by cases htrue⟩
    obtain ⟨s', prs', live', heq, h'⟩ := hout.freeNow rfl hx hnodup
    have hend : ∃ s₁, s.freeGroupEnd cfg = some s₁ ∧ ∃ prs₁ live₁, SwaInv cfg s₁ prs₁ live₁ := by
      unfold SwaAllocator.freeGroupEnd
      dsimp only
      split
      · exact ⟨s', heq, prs', live', h'⟩
      · exact ⟨_, rfl, prs, live, hout⟩
    obtain ⟨s₁, heq₁, h₁⟩ := hend
    have hstep : s.step cfg .freeGroupEnd = some (s₁, .done) := by simp [SwaAllocator.step, heq₁]
    exact ⟨s₁, _, hstep, iff_of_true (hclean hstep (by simp)) trivial, fun _ => h₁⟩

theorem exec {ops : List SwaOp} : ∀ {s : SwaAllocator} {prs : List (Nat × Nat)} {live : List Nat},
    SwaInv cfg s prs live → s.BalancedOps cfg ops →
    ∃ s' prs' live', s.exec cfg ops = some s' ∧ SwaInv cfg s' prs' live' := by
  induction ops with
  | nil => exact fun h _ => ⟨_, _, _, rfl, h⟩
  | cons op ops ih =>
    intro s prs live h hops
    obtain ⟨s₁, ret, hstep, _, hnext⟩ := h.step hops.1
    obtain ⟨prs₁, live₁, h₁⟩ := hnext hops.2.1
    have hrest := hops.2.2
    rw [hstep] at hrest
    obtain ⟨s', prs', live', heq, h'⟩ := ih h₁ hrest
    exact ⟨s', prs', live', by simp only [SwaAllocator.exec, hstep, heq], h'⟩

end SwaInv

/-- In every state that a run of valid calls reaches without a decode batch that fits one side
only, the two pools are consistent; and every next valid call returns, and is atomic exactly if it
is not such a batch. -/
theorem swa_consistent (cfg : SwaConfig) (ops : List SwaOp)
    (hops : (SwaAllocator.clear cfg).BalancedOps cfg ops) :
    ∃ s, (SwaAllocator.clear cfg).exec cfg ops = some s ∧ s.Consistent cfg ∧
      ∀ op, s.Valid cfg op →
        (s.step cfg op).isSome ∧ (s.Atomic cfg op ↔ s.Balanced cfg op) := by
  obtain ⟨s, prs, live, heq, h⟩ := (SwaInv.init cfg).exec hops
  refine ⟨s, heq, h.consistent, fun op hvalid => ?_⟩
  obtain ⟨s', ret, hstep, hatomic, _⟩ := h.step hvalid
  exact ⟨by rw [hstep]; rfl, hatomic⟩

/-- Four full pages and three sliding-window pages of two slots. -/
def sampleSwa : SwaConfig := { size := 8, sizeSwa := 6, pageSize := 2, pageSize_pos := by decide }

/-- Two requests are extended, the first decodes on its last page, the window of the second moves
on, and the first is freed in a group. -/
def sampleSwaOps : List SwaOp :=
  [.allocExtend [⟨0, 3, -1⟩, ⟨0, 2, -1⟩],
    .allocDecode [(4, 4)],
    .freeSwa [6, 7],
    .freeGroupBegin,
    .free [2, 3, 4, 5],
    .freeGroupEnd]

theorem swa_consistent_sample :
    ∃ s, (SwaAllocator.clear sampleSwa).exec sampleSwa sampleSwaOps = some s ∧
      s.Consistent sampleSwa ∧
      ∀ op, s.Valid sampleSwa op →
        (s.step sampleSwa op).isSome ∧ (s.Atomic sampleSwa op ↔ s.Balanced sampleSwa op) :=
  swa_consistent sampleSwa sampleSwaOps (by decide +kernel)

/-- Two full pages and one sliding-window page of two slots. -/
def leakSwa : SwaConfig := { size := 4, sizeSwa := 2, pageSize := 2, pageSize_pos := by decide }

/-- One request fills a page on both sides. Its next token needs a page that only the full side
has: `alloc_decode` returns `None`, and the page is gone from the full side. -/
theorem alloc_decode_not_atomic :
    (SwaAllocator.clear leakSwa).BalancedOps leakSwa [.allocExtend [⟨0, 2, -1⟩]] ∧
      ∃ s s', (SwaAllocator.clear leakSwa).exec leakSwa [.allocExtend [⟨0, 2, -1⟩]] = some s ∧
        s.Valid leakSwa (.allocDecode [(3, 3)]) ∧
        s.step leakSwa (.allocDecode [(3, 3)]) = some (s', .noMemory) ∧
        s.fullAttn.freePages = [2] ∧ s'.fullAttn.freePages = [] ∧ ¬ s.Unchanged s' := by
  refine ⟨by decide +kernel, _, _, rfl, by decide +kernel, rfl, by decide +kernel,
    by decide +kernel, ?_⟩
  intro h
  have hlen := h.full.length_eq
  revert hlen
  decide +kernel

end Sglang.MemCache
