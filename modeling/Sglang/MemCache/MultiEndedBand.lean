import Sglang.MemCache.MultiEnded
import Sglang.Lib.InverseTables
import Sglang.Lib.BandPacking

/-!
# The Band of a Two-Ended Pool

The pages inside the watermark band of a `MultiEndedAllocator` are its live pages, its holes and
the pages that wait for reuse.

- `EndInv`: the invariant, for both growth directions and both modes,
- `EndInv.alloc`, `EndInv.allocWithVirtual`, `EndInv.allocPaged`: taking pages keeps it.

## Directions

`GrowDirection.key` turns the band of a pool that grows down around: in terms of keys every pool
grows up from `EndConfig.lo`, at most to `EndConfig.hi`.
-/

namespace Sglang.MemCache

open List Function
open Lib

variable {cfg : EndConfig} {s t : MultiEndedAllocator} {live : List Int}

/-! ## Section 1: Keys -/

namespace GrowDirection

/-- The position of a page, counted towards the frontier. -/
def key : GrowDirection → Int → Int
  | .up, p => p
  | .down, p => -p

def either {α : Type} (up down : α) : GrowDirection → α
  | .up => up
  | .down => down

variable (d : GrowDirection)

theorem key_injective : Function.Injective d.key := by
  intro p q h
  cases d <;> simpa [key] using h

@[simp] theorem key_inward (p : Int) : d.key (d.inward p) = d.key p - 1 := by
  cases d <;> simp only [key, inward]
  omega

@[simp] theorem outer_iff (a b : Int) : d.outer a b = true ↔ d.key b < d.key a := by
  cases d <;> simp only [outer, key, decide_eq_true_eq]
  omega

@[simp] theorem key_frontierPage (wm : Int) : d.key (d.frontierPage wm) = d.key wm - 1 := by
  cases d <;> simp only [key, frontierPage]
  omega

@[simp] theorem key_retreat (wm : Int) (n : Nat) : d.key (d.retreat wm n) = d.key wm - n := by
  cases d <;> simp only [key, retreat]
  omega

theorem key_surjective : Function.Surjective d.key := by
  intro k
  cases d
  · exact ⟨k, rfl⟩
  · exact ⟨-k, by simp [key]⟩

theorem outerFirst_eq (l : List Int) : d.outerFirst l = (d.innerFirst l).reverse := by
  cases d <;> simp [outerFirst, innerFirst]

theorem innerFirst_perm (l : List Int) : (d.innerFirst l).Perm l := by
  cases d
  · exact .refl _
  · exact l.reverse_perm

@[simp] theorem mem_innerFirst {l : List Int} {p : Int} : p ∈ d.innerFirst l ↔ p ∈ l :=
  (d.innerFirst_perm l).mem_iff

@[simp] theorem length_innerFirst (l : List Int) : (d.innerFirst l).length = l.length :=
  (d.innerFirst_perm l).length_eq

theorem innerFirst_cutOuter (n : Nat) (l : List Int) :
    d.innerFirst (d.cutOuter n l) = (d.innerFirst l).take (l.length - n) := by
  cases d
  · rfl
  · simp only [innerFirst, cutOuter]
    rw [reverse_drop]

theorem innerFirst_cutInner (n : Nat) (l : List Int) :
    d.innerFirst (d.cutInner n l) = (d.innerFirst l).drop n := by
  cases d
  · rfl
  · simp only [innerFirst, cutInner]
    rcases Nat.le_total n l.length with h | h
    · rw [reverse_take, Nat.sub_sub_self h]
    · rw [Nat.sub_eq_zero_of_le h, take_zero, drop_of_length_le (by simpa using h)]
      rfl

theorem cutOuter_sublist (n : Nat) (l : List Int) : (d.cutOuter n l).Sublist l := by
  cases d
  · exact take_sublist ..
  · exact drop_sublist ..

theorem cutInner_sublist (n : Nat) (l : List Int) : (d.cutInner n l).Sublist l := by
  cases d
  · exact drop_sublist ..
  · exact take_sublist ..

theorem innerFirst_sorted {l : List Int} (hsort : l.Pairwise (· ≤ ·)) (hnodup : l.Nodup) :
    (d.innerFirst l).Pairwise fun a b => d.key a < d.key b := by
  have hlt : l.Pairwise (· < ·) := (hsort.and hnodup).imp fun h => lt_of_le_of_ne h.1 h.2
  cases d
  · exact hlt
  · refine (pairwise_reverse.mpr hlt).imp fun h => ?_
    simp only [key]
    omega

end GrowDirection

namespace EndConfig

variable (cfg : EndConfig)

def lo : Int :=
  match cfg.growDirection with
  | .up => cfg.minPageIndex
  | .down => 1 - cfg.numPages

def hi : Int :=
  match cfg.growDirection with
  | .up => cfg.numPages
  | .down => 1 - cfg.minPageIndex

theorem hi_sub_lo : cfg.hi - cfg.lo = cfg.numPages - cfg.minPageIndex := by
  unfold hi lo
  cases cfg.growDirection <;> simp only
  omega

def key (p : Int) : Int := cfg.growDirection.key p

/-- The page `p` is inside the band up to the watermark `wm`. -/
def InBand (wm p : Int) : Prop :=
  match cfg.growDirection with
  | .up => cfg.minPageIndex ≤ p ∧ p < wm
  | .down => wm < p ∧ p < cfg.numPages

theorem inBand_iff {wm p : Int} :
    cfg.InBand wm p ↔ cfg.lo ≤ cfg.key p ∧ cfg.key p < cfg.key wm := by
  unfold InBand lo key GrowDirection.key
  cases cfg.growDirection <;> simp only
  omega

theorem key_injective : Function.Injective cfg.key := cfg.growDirection.key_injective

end EndConfig

/-! ## Section 2: Bands -/

/-- The watermark is inside the index space; a pool without a page has it at its start. -/
def EndConfig.Watermark (cfg : EndConfig) (wm : Int) : Prop :=
  cfg.lo ≤ cfg.key wm ∧ cfg.key wm ≤ max cfg.lo cfg.hi

/-- `l` lists the pages of the band. -/
structure Band (cfg : EndConfig) (wm : Int) (l : List Int) : Prop where
  nodup : l.Nodup
  mem : ∀ p, p ∈ l ↔ cfg.InBand wm p

namespace Band

variable {cfg : EndConfig} {wm wm' : Int} {l l' : List Int}

theorem perm (h : Band cfg wm l) (hperm : l'.Perm l) : Band cfg wm l' :=
  ⟨hperm.nodup_iff.mpr h.nodup, fun p => hperm.mem_iff.trans (h.mem p)⟩

theorem mem_key (h : Band cfg wm l) {p : Int} :
    p ∈ l ↔ cfg.lo ≤ cfg.key p ∧ cfg.key p < cfg.key wm :=
  (h.mem p).trans cfg.inBand_iff

theorem mem_keys (h : Band cfg wm l) (k : Int) :
    k ∈ l.map cfg.key ↔ cfg.lo ≤ k ∧ k < cfg.key wm := by
  obtain ⟨p, rfl⟩ := cfg.growDirection.key_surjective k
  change cfg.key p ∈ _ ↔ _ ≤ cfg.key p ∧ cfg.key p < _
  rw [mem_map_of_injective cfg.key_injective, h.mem_key]

theorem keys_nodup (h : Band cfg wm l) : (l.map cfg.key).Nodup :=
  h.nodup.map cfg.key_injective

theorem length (h : Band cfg wm l) (hlo : cfg.lo ≤ cfg.key wm) :
    (l.length : Int) = cfg.key wm - cfg.lo := by
  have := length_of_mem_Ico h.keys_nodup h.mem_keys
  rw [length_map] at this
  omega

theorem extend (h : Band cfg wm l) (hlo : cfg.lo ≤ cfg.key wm) {new : List Int}
    (hnodup : new.Nodup) (hnew : ∀ p, p ∈ new ↔ cfg.key wm ≤ cfg.key p ∧ cfg.key p < cfg.key wm')
    (hle : cfg.key wm ≤ cfg.key wm') : Band cfg wm' (l ++ new) := by
  refine ⟨nodup_append.mpr ⟨h.nodup, hnodup, ?_⟩, fun p => ?_⟩
  · rintro p hp _ hq rfl
    have := (h.mem_key.mp hp).2
    have := ((hnew p).mp hq).1
    omega
  · rw [mem_append, h.mem_key, hnew, cfg.inBand_iff]
    omega

theorem cut {out : List Int} (h : Band cfg wm (l ++ out)) (hle : cfg.key wm' ≤ cfg.key wm)
    (hin : ∀ p ∈ l, cfg.key p < cfg.key wm') (hout : ∀ p ∈ out, cfg.key wm' ≤ cfg.key p) :
    Band cfg wm' l := by
  refine ⟨(nodup_append.mp h.nodup).1, fun p => ?_⟩
  rw [cfg.inBand_iff]
  constructor
  · intro hp
    exact ⟨(h.mem_key.mp (mem_append_left _ hp)).1, hin p hp⟩
  · rintro ⟨hlo, hlt⟩
    rcases mem_append.mp (h.mem_key.mpr ⟨hlo, by omega⟩) with hp | hp
    · exact hp
    · have := hout p hp
      omega

theorem ne_zero (h : Band cfg wm l) (hwm : cfg.Watermark wm) {p : Int} (hp : p ∈ l) : p ≠ 0 := by
  rintro rfl
  have hband := h.mem_key.mp hp
  obtain ⟨_, hhi⟩ := hwm
  have hpos := cfg.minPage_pos
  unfold EndConfig.lo EndConfig.hi EndConfig.key GrowDirection.key at *
  cases hd : cfg.growDirection <;> simp only [hd] at hband hhi <;> omega

end Band

/-! ## Section 3: The invariant -/

namespace MultiEndedAllocator

/-- The pages listed in `_pending_reuse`. -/
def pendingPages (s : MultiEndedAllocator) : List Int := s.pendingReuse.flatMap Prod.snd

/-- Virtual page `v` is bound, and not the padding anchor. -/
def Bound (s : MultiEndedAllocator) (v : Nat) : Prop := v ≠ 0 ∧ (s.virtualToPhysical v).isSome

/-- The tokens may be freed: their pages are bound, and without `torch.unique` no page occurs
twice. -/
structure Freeable (cfg : EndConfig) (s : MultiEndedAllocator) (freeIndex : List Nat) : Prop where
  bound : ∀ x ∈ freeIndex, s.Bound (x / cfg.pageSize)
  nodup : cfg.pageSize = 1 → freeIndex.Nodup

end MultiEndedAllocator

/-- The pages of the band and the tables. `live` lists the live pages. -/
structure BandInv (cfg : EndConfig) (s : MultiEndedAllocator) (live : List Int) : Prop where
  watermark : cfg.Watermark s.watermark
  band : Band cfg s.watermark (live ++ s.freePhysPages ++ s.pendingPages)
  inverse : InverseTables s.virtualToPhysical s.physicalToVirtual
  live_iff : ∀ p, p ∈ live ↔ p ≠ 0 ∧ (s.physicalToVirtual p).isSome
  anchor : s.virtualToPhysical 0 = some 0
  pending_cpu : s.pendingReusePagesCpu = s.pendingPages.toFinset
  events_nodup : (s.pendingReuse.map Prod.fst).Nodup
  count : cfg.lazyCompaction = true → s.livePageCount = live.length
  eager : cfg.lazyCompaction = false → s.freePhysPages = [] ∧ s.pendingReuse = []
  sorted : cfg.sortAfterMerge = true → s.freePhysPages.Pairwise (· ≤ ·)

/-- The free virtual pages of an id owner are as many as it may still bind. -/
structure VirtualIds (cfg : EndConfig) (s : MultiEndedAllocator) (live : List Int) : Prop where
  nodup : s.freeVirtualIds.Nodup
  unbound : ∀ v ∈ s.freeVirtualIds, s.virtualToPhysical v = none
  length : s.freeVirtualIds.length + live.length = cfg.numPages - cfg.minPageIndex

/-- The invariant of one end. -/
structure EndInv (cfg : EndConfig) (s : MultiEndedAllocator) (live : List Int) : Prop
    extends BandInv cfg s live where
  virtualIds : cfg.isIdOwner = true → VirtualIds cfg s live
  group : s.inFreeGroup = false → s.freeGroup = []
  grouped : s.Freeable cfg s.freeGroup.flatten

/-! ## Section 4: Taking pages -/

theorem mem_pageRange {start p : Int} {n : Nat} :
    p ∈ pageRange start n ↔ start ≤ p ∧ p < start + n := by
  unfold pageRange
  simp only [mem_map, mem_range]
  constructor
  · rintro ⟨k, hk, rfl⟩
    omega
  · rintro ⟨hle, hlt⟩
    exact ⟨(p - start).toNat, by omega, by omega⟩

@[simp] theorem length_pageRange (start : Int) (n : Nat) : (pageRange start n).length = n := by
  simp [pageRange]

theorem nodup_pageRange (start : Int) (n : Nat) : (pageRange start n).Nodup := by
  refine nodup_range.map fun a b h => ?_
  simpa using h

namespace MultiEndedAllocator

/-- `t` is `s` with the watermark `n` pages further out. -/
structure Advanced (cfg : EndConfig) (s t : MultiEndedAllocator) (n : Nat) : Prop where
  frame : t = { s with watermark := t.watermark }
  key : cfg.key t.watermark = cfg.key s.watermark + n
  le_hi : cfg.key t.watermark ≤ cfg.hi

theorem extendWatermark_advanced {peer : Option Int} {n : Nat}
    (h : s.extendWatermark cfg peer n = some t) : Advanced cfg s t n := by
  unfold extendWatermark at h
  cases hd : cfg.growDirection <;> simp only [hd] at h <;> split at h
  · cases h
  · split at h
    · cases h
    · cases h
      refine ⟨rfl, ?_, ?_⟩ <;> simp only [EndConfig.key, GrowDirection.key, EndConfig.hi, hd]
      omega
  · cases h
  · split at h
    · cases h
    · cases h
      refine ⟨rfl, ?_, ?_⟩ <;> simp only [EndConfig.key, GrowDirection.key, EndConfig.hi, hd] <;>
        omega

theorem extendEager_advanced {n : Nat} (h : s.extendEager cfg n = some t) :
    Advanced cfg s t n := by
  unfold extendEager at h
  cases hd : cfg.growDirection <;> simp only [hd] at h <;> split at h
  · cases h
  · cases h
    refine ⟨rfl, ?_, ?_⟩ <;> simp only [EndConfig.key, GrowDirection.key, EndConfig.hi, hd]
    omega
  · cases h
  · cases h
    refine ⟨rfl, ?_, ?_⟩ <;> simp only [EndConfig.key, GrowDirection.key, EndConfig.hi, hd] <;>
      omega

/-- `pages` is a part of the holes and new pages in front of the band. -/
structure Taken (cfg : EndConfig) (s t : MultiEndedAllocator) (drained new : List Int) : Prop where
  frame : t = { s with watermark := t.watermark, freePhysPages := t.freePhysPages,
                       livePageCount := t.livePageCount }
  key : cfg.key t.watermark = cfg.key s.watermark + new.length
  le_hi : new ≠ [] → cfg.key t.watermark ≤ cfg.hi
  holes : (drained ++ t.freePhysPages).Perm s.freePhysPages
  rest : t.freePhysPages.Sublist s.freePhysPages
  nodup : new.Nodup
  mem : ∀ p, p ∈ new ↔ cfg.key s.watermark ≤ cfg.key p ∧ cfg.key p < cfg.key t.watermark
  count : cfg.lazyCompaction = true → t.livePageCount = s.livePageCount + (drained ++ new).length
  holes_first : new ≠ [] → drained.length = s.freePhysPages.length

theorem mem_new {n : Nat} {wm wm' start p : Int} (hkey : cfg.key wm' = cfg.key wm + n)
    (hstart : start = match cfg.growDirection with
      | .up => wm
      | .down => wm' + 1) :
    p ∈ pageRange start n ↔ cfg.key wm ≤ cfg.key p ∧ cfg.key p < cfg.key wm' := by
  rw [mem_pageRange]
  unfold EndConfig.key GrowDirection.key at *
  cases hd : cfg.growDirection <;> simp only [hd] at hkey hstart ⊢ <;> omega

theorem takePhysicalPages_taken {peer : Option Int} {n : Nat} {pages : List Int}
    (h : s.takePhysicalPages cfg peer n = some (t, pages)) :
    ∃ drained new, pages = drained ++ new ∧ pages.length = n ∧ Taken cfg s t drained new := by
  unfold takePhysicalPages at h
  dsimp only at h
  generalize hdrain : min n s.freePhysPages.length = nDrain at h
  have hle : nDrain ≤ s.freePhysPages.length := by omega
  -- the watermark moves by what the holes do not give
  have hadv : ∃ s₁, (if 0 < n - nDrain then s.extendWatermark cfg peer (n - nDrain) else some s) =
      some s₁ ∧ s₁ = { s with watermark := s₁.watermark } ∧
      cfg.key s₁.watermark = cfg.key s.watermark + (n - nDrain : Nat) ∧
      (n - nDrain ≠ 0 → cfg.key s₁.watermark ≤ cfg.hi) := by
    split
    · next hpos =>
      cases hext : s.extendWatermark cfg peer (n - nDrain) with
      | none => simp [hpos, hext] at h
      | some s₁ =>
        have hadv := extendWatermark_advanced hext
        exact ⟨s₁, rfl, hadv.frame, hadv.key, fun _ => hadv.le_hi⟩
    · next hpos =>
      exact ⟨s, rfl, rfl, by omega, fun hne => absurd hne (by omega)⟩
  obtain ⟨s₁, heq, hframe, hkey, hhi⟩ := hadv
  rw [heq] at h
  have hfree : s₁.freePhysPages = s.freePhysPages := by rw [hframe]
  have hlive : s₁.livePageCount = s.livePageCount := by rw [hframe]
  simp only [Option.some.injEq, Prod.mk.injEq] at h
  obtain ⟨rfl, rfl⟩ := h
  rw [hfree, hlive]
  -- the two ways to drain the free list
  have hholes : ∀ dr : List Int × List Int,
      dr = ((s.freePhysPages.drop (s.freePhysPages.length - nDrain)).reverse,
        s.freePhysPages.take (s.freePhysPages.length - nDrain)) ∨
      dr = (s.freePhysPages.take nDrain, s.freePhysPages.drop nDrain) →
      (dr.1 ++ dr.2).Perm s.freePhysPages ∧ dr.2.Sublist s.freePhysPages ∧
        dr.1.length = nDrain := by
    rintro dr (rfl | rfl)
    · refine ⟨?_, take_sublist .., ?_⟩
      · refine ((reverse_perm _).append_right _).trans ?_
        refine perm_append_comm.trans (.of_eq ?_)
        exact take_append_drop ..
      · simp only [length_reverse, length_drop]
        omega
    · refine ⟨.of_eq (take_append_drop ..), drop_sublist .., ?_⟩
      simp only [length_take]
      omega
  -- the two ways to list the new pages
  have hnew : ∀ new : List Int,
      (new.Perm (pageRange (match cfg.growDirection with
        | .up => s.watermark
        | .down => s₁.watermark + 1) (n - nDrain))) →
      new.length = n - nDrain ∧ new.Nodup ∧
        ∀ p, p ∈ new ↔ cfg.key s.watermark ≤ cfg.key p ∧ cfg.key p < cfg.key s₁.watermark := by
    intro new hperm
    refine ⟨by simpa using hperm.length_eq, hperm.nodup_iff.mpr (nodup_pageRange _ _), fun p => ?_⟩
    rw [hperm.mem_iff]
    exact mem_new hkey rfl
  have hbuild : ∀ (dr : List Int × List Int) (new : List Int),
      (dr.1 ++ dr.2).Perm s.freePhysPages ∧ dr.2.Sublist s.freePhysPages ∧ dr.1.length = nDrain →
      new.length = n - nDrain ∧ new.Nodup ∧
        (∀ p, p ∈ new ↔ cfg.key s.watermark ≤ cfg.key p ∧ cfg.key p < cfg.key s₁.watermark) →
      ∃ drained new', dr.1 ++ new = drained ++ new' ∧ (dr.1 ++ new).length = n ∧
        Taken cfg s { s₁ with freePhysPages := dr.2, livePageCount := s.livePageCount + n }
          drained new' := by
    rintro dr new ⟨hperm, hsub, hdlen⟩ ⟨hnlen, hnodup, hmem⟩
    have hlen : (dr.1 ++ new).length = n := by
      rw [length_append]
      omega
    refine ⟨dr.1, new, rfl, hlen, ?_, ?_, ?_, hperm, hsub, hnodup, hmem, ?_, ?_⟩
    · rw [hframe]
    · rw [hnlen]
      exact hkey
    · intro hne
      refine hhi fun hz => hne (length_eq_zero_iff.mp (by omega))
    · intro _
      rw [hlen]
    · intro hne
      have := length_pos_iff.mpr hne
      omega
  refine hbuild _ _ (hholes _ ?_) (hnew _ ?_)
  · split
    · exact .inl rfl
    · exact .inr rfl
  · cases hd : cfg.growDirection <;> simp only
    · have : s₁.watermark - (n - nDrain : Nat) = s.watermark := by
        simp only [EndConfig.key, GrowDirection.key, hd] at hkey
        omega
      rw [this]
    · split
      · exact .refl _
      · exact reverse_perm _

theorem allocBind_taken {peer : Option Int} {vs : List Nat} {n : Nat} (hn : vs.length = n)
    (h : s.allocBind cfg peer vs n = some t)
    (heager : cfg.lazyCompaction = false → s.freePhysPages = []) :
    ∃ t₀ drained new, (drained ++ new).length = n ∧ Taken cfg s t₀ drained new ∧
      t = t₀.bind vs (drained ++ new) := by
  unfold allocBind at h
  split at h
  · -- nothing is asked for
    next hz =>
    cases h
    subst hz
    obtain rfl := length_eq_zero_iff.mp hn
    refine ⟨s, [], [], rfl, ⟨rfl, by simp, by simp, .refl _, .refl _, by simp, ?_, by simp,
      by simp⟩, rfl⟩
    intro p
    simp only [not_mem_nil, false_iff]
    omega
  · next hz =>
    split at h
    · -- no pages wait to be used again: the watermark moves by `n`
      next hfast =>
      have hnil : s.freePhysPages = [] := by
        rcases hfast with hl | hl
        · exact heager (by simpa using hl)
        · exact hl
      have hadv : ∃ t₁, (if cfg.lazyCompaction then s.extendWatermark cfg peer n
          else s.extendEager cfg n) = some t₁ ∧ Advanced cfg s t₁ n := by
        split
        · next hl =>
          cases hext : s.extendWatermark cfg peer n with
          | none => simp [hl, hext] at h
          | some t₁ => exact ⟨t₁, rfl, extendWatermark_advanced hext⟩
        · next hl =>
          cases hext : s.extendEager cfg n with
          | none => simp [hl, hext] at h
          | some t₁ => exact ⟨t₁, rfl, extendEager_advanced hext⟩
      obtain ⟨t₁, heq, hadv⟩ := hadv
      rw [heq] at h
      simp only [Option.some.injEq] at h
      generalize hnew : pageRange (match cfg.growDirection with
        | .up => s.watermark
        | .down => s.watermark - n + 1) n = new at h
      have hnlen : new.length = n := by rw [← hnew, length_pageRange]
      have hmem : ∀ p, p ∈ new ↔
          cfg.key s.watermark ≤ cfg.key p ∧ cfg.key p < cfg.key t₁.watermark := by
        intro p
        rw [← hnew]
        refine mem_new hadv.key ?_
        have hkey := hadv.key
        cases hd : cfg.growDirection <;> simp only
        simp only [EndConfig.key, GrowDirection.key, hd] at hkey
        omega
      have hfree : t₁.freePhysPages = s.freePhysPages := by rw [hadv.frame]
      refine ⟨{ t₁ with livePageCount :=
          if cfg.lazyCompaction then s.livePageCount + n else s.livePageCount }, [], new,
        by simpa using hnlen, ⟨?_, ?_, fun _ => hadv.le_hi, ?_, ?_, ?_, hmem, ?_, by simp [hnil]⟩,
        ?_⟩
      · rw [hadv.frame]
      · rw [hnlen]
        exact hadv.key
      · simp [hfree]
      · simp [hfree]
      · rw [← hnew]
        exact nodup_pageRange _ _
      · intro hl
        simp [hl, hnlen]
      · have hlive : t₁.livePageCount = s.livePageCount := by rw [hadv.frame]
        rw [← h]
        simp only [bind, hlive, nil_append]
        split
        · rfl
        · rw [← hlive]
    · -- the waiting pages go first, then the watermark moves
      next hslow =>
      cases htake : s.takePhysicalPages cfg peer n with
      | none => simp [htake] at h
      | some r =>
        obtain ⟨t₀, pages⟩ := r
        rw [htake] at h
        obtain ⟨drained, new, rfl, hlen, htaken⟩ := takePhysicalPages_taken htake
        cases h
        exact ⟨t₀, drained, new, hlen, htaken, rfl⟩

end MultiEndedAllocator

namespace BandInv

open MultiEndedAllocator

section

variable (h : BandInv cfg s live)
include h

theorem unbound {p : Int} (hne : p ≠ 0) (hp : p ∉ live) :
    s.physicalToVirtual p = none := by
  rw [← Option.not_isSome_iff_eq_none]
  intro hsome
  apply hp
  exact (h.live_iff p).mpr ⟨hne, hsome⟩

theorem anchor_back : s.physicalToVirtual 0 = some 0 :=
  (h.inverse 0 0).mp h.anchor

theorem live_of_bound {v : Nat} {p : Int} (hv : v ≠ 0)
    (hp : s.virtualToPhysical v = some p) : p ∈ live := by
  have hback := (h.inverse v p).mp hp
  apply (h.live_iff p).mpr
  refine ⟨?_, by rw [hback]; rfl⟩
  rintro rfl
  rw [h.anchor_back] at hback
  exact hv (Option.some.inj hback).symm

theorem bound_of_live {p : Int} (hp : p ∈ live) :
    ∃ v, v ≠ 0 ∧ s.physicalToVirtual p = some v ∧ s.virtualToPhysical v = some p := by
  obtain ⟨hne, hsome⟩ := (h.live_iff p).mp hp
  obtain ⟨v, hv⟩ := Option.isSome_iff_exists.mp hsome
  have hvp := (h.inverse v p).mpr hv
  refine ⟨v, ?_, hv, hvp⟩
  rintro rfl
  rw [h.anchor] at hvp
  exact hne (Option.some.inj hvp).symm

theorem in_band {p : Int} (hp : p ∈ live) : p ≠ 0 := ((h.live_iff p).mp hp).1

theorem live_nodup : live.Nodup :=
  (nodup_append.mp (nodup_append.mp h.band.nodup).1).1

theorem holes_nodup : s.freePhysPages.Nodup :=
  (nodup_append.mp (nodup_append.mp h.band.nodup).1).2.1

theorem taken_fresh {drained new : List Int}
    (htaken : Taken cfg s t drained new) :
    Band cfg t.watermark (live ++ (drained ++ new) ++ t.freePhysPages ++ s.pendingPages) ∧
      cfg.Watermark t.watermark := by
  have hkey := htaken.key
  have hle : cfg.key s.watermark ≤ cfg.key t.watermark := by omega
  have hext := h.band.extend h.watermark.1 htaken.nodup htaken.mem hle
  constructor
  · apply hext.perm
    -- the drained pages leave the holes, the new ones were put at the end
    have hholes := htaken.holes
    calc (live ++ (drained ++ new) ++ t.freePhysPages ++ s.pendingPages).Perm
          (live ++ (drained ++ t.freePhysPages) ++ (s.pendingPages ++ new)) := by
          simp only [append_assoc]
          refine List.Perm.append_left _ (List.Perm.append_left _ ?_)
          refine perm_append_comm.trans ?_
          simp only [append_assoc]
          exact .refl _
      _ |>.Perm (live ++ s.freePhysPages ++ (s.pendingPages ++ new)) :=
          (hholes.append_left _).append_right _
      _ |>.Perm (live ++ s.freePhysPages ++ s.pendingPages ++ new) := by
          simp only [append_assoc]
          exact .refl _
  · obtain ⟨hlo, hhi⟩ := h.watermark
    refine ⟨by omega, ?_⟩
    cases hnew : new with
    | nil =>
      rw [hkey, hnew]
      simpa using hhi
    | cons p rest =>
      have hle := htaken.le_hi (by simp [hnew])
      exact hle.trans (le_max_right _ _)

theorem bind {drained new : List Int} {vs : List Nat}
    (htaken : Taken cfg s t drained new) (hlen : vs.length = (drained ++ new).length)
    (hvs : vs.Nodup) (hunbound : ∀ v ∈ vs, s.virtualToPhysical v = none) :
    BandInv cfg (t.bind vs (drained ++ new)) (live ++ (drained ++ new)) := by
  obtain ⟨hband, hwm⟩ := h.taken_fresh htaken
  generalize hpages : drained ++ new = pages at *
  have hv2p : t.virtualToPhysical = s.virtualToPhysical := by rw [htaken.frame]
  have hp2v : t.physicalToVirtual = s.physicalToVirtual := by rw [htaken.frame]
  have hpend : t.pendingReuse = s.pendingReuse := by rw [htaken.frame]
  have hcpu : t.pendingReusePagesCpu = s.pendingReusePagesCpu := by rw [htaken.frame]
  -- the pages are distinct and not live
  have hfront := (nodup_append.mp (nodup_append.mp hband.nodup).1).1
  obtain ⟨_, hnodup, hdisj⟩ := nodup_append.mp hfront
  have hzero : ∀ p ∈ pages, p ≠ 0 := fun p hp => hband.ne_zero hwm (by simp [hp])
  have hfree : ∀ p ∈ pages, s.physicalToVirtual p = none := fun p hp =>
    h.unbound (hzero p hp) fun hlive => hdisj p hlive p hp rfl
  -- both tables are written with the same pairs
  have hpairs₁ : vs.zip (pages.map some) = (vs.zip pages).map fun w => (w.1, some w.2) := by
    rw [zip_map_right]
    rfl
  have hpairs₂ : pages.zip (vs.map some) = (vs.zip pages).map fun w => (w.2, some w.1) := by
    rw [zip_map_right, ← zip_swap, map_map]
    rfl
  have hfst : (vs.zip pages).map Prod.fst = vs := map_fst_zip hlen.le
  have hsnd : (vs.zip pages).map Prod.snd = pages := map_snd_zip hlen.ge
  have hfstmem : ∀ w ∈ vs.zip pages, w.1 ∈ vs := fun w hw => (of_mem_zip hw).1
  have hsndmem : ∀ w ∈ vs.zip pages, w.2 ∈ pages := fun w hw => (of_mem_zip hw).2
  have hinv := h.inverse.bind (vs.zip pages) (by rw [hfst]; exact hvs) (by rw [hsnd]; exact hnodup)
    (fun w hw => hunbound _ (hfstmem w hw)) (fun w hw => hfree _ (hsndmem w hw))
  refine
    { watermark := hwm
      band := ?_
      inverse := ?_
      live_iff := ?_
      anchor := ?_
      pending_cpu := ?_
      events_nodup := ?_
      count := ?_
      eager := ?_
      sorted := ?_ }
  · simpa only [MultiEndedAllocator.bind, pendingPages, hpend] using hband
  · simpa only [MultiEndedAllocator.bind, hv2p, hp2v, hpairs₁, hpairs₂] using hinv
  · intro p
    simp only [MultiEndedAllocator.bind, hp2v, hpairs₂, mem_append]
    by_cases hp : p ∈ pages
    · -- a page that was taken is bound now
      obtain ⟨v, hvp⟩ : ∃ v, (v, p) ∈ vs.zip pages := by
        have : p ∈ (vs.zip pages).map Prod.snd := by rw [hsnd]; exact hp
        obtain ⟨w, hw, rfl⟩ := mem_map.mp this
        exact ⟨w.1, hw⟩
      have hbound := (hinv v p).mp ((scatter_bind_iff (by rw [hfst]; exact hvs)
        (fun w hw => hunbound _ (hfstmem w hw)) v p).mpr (.inl hvp))
      rw [hbound]
      simp [hp, hzero p hp]
    · rw [scatter_of_not_mem, h.live_iff p]
      · simp [hp]
      · simp only [map_map, comp_def]
        rwa [hsnd]
  · change scatter t.virtualToPhysical _ 0 = some 0
    rw [hv2p, hpairs₁, scatter_of_not_mem, h.anchor]
    simp only [map_map, comp_def]
    rw [hfst]
    intro hmem
    have := hunbound 0 hmem
    rw [h.anchor] at this
    cases this
  · simpa only [MultiEndedAllocator.bind, pendingPages, hpend, hcpu] using h.pending_cpu
  · simpa only [MultiEndedAllocator.bind, hpend] using h.events_nodup
  · intro hlazy
    change t.livePageCount = _
    rw [htaken.count hlazy, h.count hlazy, hpages, length_append]
    push_cast
    rfl
  · intro heager
    obtain ⟨hnil, hpnil⟩ := h.eager heager
    have hsub := htaken.rest
    rw [hnil] at hsub
    exact ⟨eq_nil_of_sublist_nil hsub, hpend.trans hpnil⟩
  · intro hsort
    exact (h.sorted hsort).sublist htaken.rest

end

end BandInv

/-! ## Section 5: Allocation -/

/-- `t` is `s` after pages were taken and bound to the free virtual pages `vs`. -/
structure Purchase (cfg : EndConfig) (s t : MultiEndedAllocator) (vs : List Nat)
    (drained new : List Int) : Prop where
  unbound : ∀ v ∈ vs, s.virtualToPhysical v = none
  length : (drained ++ new).length = vs.length
  bind : ∃ t₀, MultiEndedAllocator.Taken cfg s t₀ drained new ∧
    t = { t₀.bind vs (drained ++ new) with freeVirtualIds := t.freeVirtualIds }

/-- What an allocation of `n` pages by an id owner does: nothing, or a purchase that the gate has
room for. -/
def Paid (cfg : EndConfig) (s t : MultiEndedAllocator) (peer flushed : Option Int) (n : Nat)
    (out : Option (List Nat)) : Prop :=
  (t = s ∧ (out = none ∨ n = 0)) ∨ ∃ view drained new,
    Purchase cfg s t (s.freeVirtualIds.take n) drained new ∧ n ≤ s.freeVirtualIds.length ∧
      s.gate cfg peer flushed (n * cfg.pageSize) = some view

namespace EndInv

open MultiEndedAllocator

theorem init (cfg : EndConfig) : EndInv cfg (clear cfg) [] := by
  have hkey : cfg.key (clear cfg).watermark = cfg.lo := by
    unfold clear EndConfig.key EndConfig.lo GrowDirection.key
    cases cfg.growDirection <;> simp only
    omega
  refine
    { watermark := ⟨by omega, by rw [hkey]; exact le_max_left _ _⟩
      band := ⟨nodup_nil, fun p => ?_⟩
      inverse := ?_
      live_iff := ?_
      anchor := rfl
      pending_cpu := rfl
      events_nodup := nodup_nil
      count := fun _ => rfl
      eager := fun _ => ⟨rfl, rfl⟩
      sorted := fun _ => List.Pairwise.nil
      virtualIds := ?_
      group := fun _ => rfl
      grouped := ⟨by simp [clear], fun _ => by simp [clear]⟩ }
  · rw [cfg.inBand_iff, hkey]
    constructor
    · intro hmem
      simp [clear, pendingPages] at hmem
    · omega
  · intro v p
    simp only [clear]
    constructor <;> intro h <;> split at h <;> simp_all
  · intro p
    simp only [clear, not_mem_nil, false_iff, not_and]
    intro hne
    simp [hne]
  · intro howner
    refine ⟨?_, ?_, ?_⟩ <;> simp only [clear, howner, if_true]
    · exact nodup_range'
    · intro v hv
      have := (mem_range'_1.mp hv).1
      have := cfg.minPage_pos
      rw [if_neg (by omega)]
    · simp

theorem bound_bind {vs : List Nat} {pages : List Int} {v : Nat}
    (hunbound : ∀ w ∈ vs, s.virtualToPhysical w = none)
    (hv2p : t.virtualToPhysical = s.virtualToPhysical) (hv : s.Bound v) :
    (t.bind vs pages).Bound v := by
  refine ⟨hv.1, ?_⟩
  change (scatter t.virtualToPhysical _ v).isSome
  rw [hv2p, scatter_of_not_mem]
  · exact hv.2
  · intro hmem
    obtain ⟨w, hw, rfl⟩ := mem_map.mp hmem
    have hnone := hunbound _ (of_mem_zip hw).1
    have hsome := hv.2
    rw [hnone] at hsome
    cases hsome

theorem bindGiven (h : EndInv cfg s live) (howner : cfg.isIdOwner = false) {drained new : List Int}
    {vs : List Nat} (htaken : Taken cfg s t drained new)
    (hlen : vs.length = (drained ++ new).length) (hvs : vs.Nodup)
    (hunbound : ∀ v ∈ vs, s.virtualToPhysical v = none) :
    EndInv cfg (t.bind vs (drained ++ new)) (live ++ (drained ++ new)) := by
  have hv2p : t.virtualToPhysical = s.virtualToPhysical := by rw [htaken.frame]
  have hgroup : t.freeGroup = s.freeGroup := by rw [htaken.frame]
  have hin : t.inFreeGroup = s.inFreeGroup := by rw [htaken.frame]
  refine
    { toBandInv := h.toBandInv.bind htaken hlen hvs hunbound
      virtualIds := fun ho => absurd ho (by simp [howner])
      group := fun hg => hgroup.trans (h.group (hin ▸ hg))
      grouped := ?_ }
  change Freeable cfg _ t.freeGroup.flatten
  rw [hgroup]
  exact ⟨fun x hx => bound_bind hunbound hv2p (h.grouped.bound x hx), h.grouped.nodup⟩

/-- Pages are bound to the first free virtual pages of an id owner. -/
theorem bindOwn (h : EndInv cfg s live) (howner : cfg.isIdOwner = true) {drained new : List Int}
    {n : Nat} (htaken : Taken cfg s t drained new) (hlen : (drained ++ new).length = n)
    (hn : n ≤ s.freeVirtualIds.length) :
    EndInv cfg
      { t.bind (s.freeVirtualIds.take n) (drained ++ new) with
        freeVirtualIds := s.freeVirtualIds.drop n }
      (live ++ (drained ++ new)) := by
  have hids := h.virtualIds howner
  have hvs : (s.freeVirtualIds.take n).Nodup := (take_sublist n _).nodup hids.nodup
  have hunbound : ∀ v ∈ s.freeVirtualIds.take n, s.virtualToPhysical v = none := fun v hv =>
    hids.unbound v (mem_of_mem_take hv)
  have htake : (s.freeVirtualIds.take n).length = n := by
    rw [length_take]
    omega
  have hv2p : t.virtualToPhysical = s.virtualToPhysical := by rw [htaken.frame]
  have hgroup : t.freeGroup = s.freeGroup := by rw [htaken.frame]
  have hin : t.inFreeGroup = s.inFreeGroup := by rw [htaken.frame]
  have hcore := h.toBandInv.bind htaken (htake.trans hlen.symm) hvs hunbound
  refine
    { watermark := hcore.watermark
      band := hcore.band
      inverse := hcore.inverse
      live_iff := hcore.live_iff
      anchor := hcore.anchor
      pending_cpu := hcore.pending_cpu
      events_nodup := hcore.events_nodup
      count := hcore.count
      eager := hcore.eager
      sorted := hcore.sorted
      virtualIds := fun _ => ⟨(drop_sublist n _).nodup hids.nodup, ?_, ?_⟩
      group := fun hg => hgroup.trans (h.group (hin ▸ hg))
      grouped := ?_ }
  · -- what is left of the free virtual pages was not bound just now
    intro v hv
    change scatter t.virtualToPhysical _ v = none
    rw [hv2p, scatter_of_not_mem]
    · exact hids.unbound v (mem_of_mem_drop hv)
    · intro hmem
      obtain ⟨w, hw, rfl⟩ := mem_map.mp hmem
      exact disjoint_take_drop hids.nodup (le_refl n) (of_mem_zip hw).1 hv
  · have := hids.length
    simp only [length_drop, length_append] at hlen ⊢
    omega
  · change Freeable cfg _ t.freeGroup.flatten
    rw [hgroup]
    exact ⟨fun x hx => bound_bind hunbound hv2p (h.grouped.bound x hx), h.grouped.nodup⟩

theorem le_freeVirtualIds (h : EndInv cfg s live) (howner : cfg.isIdOwner = true)
    (peer : Option Int) {n : Nat} (hroom : (n * cfg.pageSize : Int) ≤ s.availableSize cfg peer) :
    n ≤ s.freeVirtualIds.length := by
  have hids := h.virtualIds howner
  have hlen := h.band.length h.watermark.1
  have hspace := cfg.hi_sub_lo
  have hps : (0 : Int) < cfg.pageSize := by exact_mod_cast cfg.pageSize_pos
  have hn := le_of_mul_le_mul_right hroom hps
  have hpages : s.allocatedPages cfg = cfg.key s.watermark - cfg.lo := by
    have := h.watermark.1
    unfold allocatedPages EndConfig.key EndConfig.lo GrowDirection.key at *
    cases hd : cfg.growDirection <;> simp only [hd] at this ⊢ <;> omega
  have hdrain : (if cfg.lazyCompaction then (s.freePhysPages.length : Int) else 0) ≤
      s.freePhysPages.length := by
    split <;> omega
  have hmin := min_le_right (s.currentGapBytes cfg peer / cfg.entryBytesPerPage)
    ((cfg.numPages : Int) - cfg.minPageIndex - s.allocatedPages cfg)
  have := hids.length
  simp only [length_append] at hlen
  push_cast at hlen
  omega

theorem gate_room {peer flushed view : Option Int} {need : Nat}
    (h : s.gate cfg peer flushed need = some view) : (need : Int) ≤ s.availableSize cfg view := by
  unfold gate at h
  split at h
  · split at h
    · next hflush =>
      cases h
      exact hflush.2.2
    · cases h
  · next hle =>
    cases h
    omega

theorem eager_holes (h : EndInv cfg s live) : cfg.lazyCompaction = false → s.freePhysPages = [] :=
  fun he => (h.eager he).1

theorem alloc (h : EndInv cfg s live) {peer flushed : Option Int} {need : Nat}
    {out : Option (List Nat)} (heq : s.alloc cfg peer flushed need = some (t, out)) :
    ∃ live', EndInv cfg t live' ∧ Paid cfg s t peer flushed (need / cfg.pageSize) out := by
  unfold MultiEndedAllocator.alloc at heq
  split at heq
  · cases heq
  next howner =>
  have howner : cfg.isIdOwner = true := by simpa using howner
  split at heq
  · cases heq
    exact ⟨live, h, .inl ⟨rfl, .inr (by simp [*])⟩⟩
  split at heq
  · cases heq
  next hmod =>
  cases hgate : s.gate cfg peer flushed need with
  | none =>
    rw [hgate] at heq
    cases heq
    exact ⟨live, h, .inl ⟨rfl, .inl rfl⟩⟩
  | some view =>
    rw [hgate] at heq
    dsimp only at heq
    have hdvd : need / cfg.pageSize * cfg.pageSize = need :=
      Nat.div_mul_cancel (Nat.dvd_of_mod_eq_zero (by simpa using hmod))
    have hn : need / cfg.pageSize ≤ s.freeVirtualIds.length := by
      apply h.le_freeVirtualIds howner view
      have := gate_room hgate
      rw [← hdvd] at this
      exact_mod_cast this
    cases hbind : ({ s with freeVirtualIds := s.freeVirtualIds.drop (need / cfg.pageSize) } :
        MultiEndedAllocator).allocBind cfg view (s.freeVirtualIds.take (need / cfg.pageSize))
          (need / cfg.pageSize) with
    | none =>
      rw [hbind] at heq
      cases heq
      exact ⟨live, h, .inl ⟨rfl, .inl rfl⟩⟩
    | some t' =>
      rw [hbind] at heq
      cases heq
      have htake : (s.freeVirtualIds.take (need / cfg.pageSize)).length = need / cfg.pageSize := by
        rw [length_take]
        omega
      obtain ⟨t₀, drained, new, hlen, htaken, rfl⟩ := allocBind_taken htake hbind h.eager_holes
      -- the same pages are taken from `s` itself
      have htaken' : Taken cfg s { t₀ with freeVirtualIds := s.freeVirtualIds } drained new :=
        ⟨by rw [htaken.frame], htaken.key, htaken.le_hi, htaken.holes, htaken.rest, htaken.nodup,
          htaken.mem, htaken.count, htaken.holes_first⟩
      have hids : t₀.freeVirtualIds = s.freeVirtualIds.drop (need / cfg.pageSize) := by
        rw [htaken.frame]
      have hown := h.bindOwn howner htaken' hlen hn
      simp only [MultiEndedAllocator.bind] at hown ⊢
      rw [← hids] at hown
      refine ⟨_, hown, .inr ⟨view, drained, new, ⟨?_, hlen.trans htake.symm, _, htaken', rfl⟩, hn,
        ?_⟩⟩
      · intro v hv
        exact (h.virtualIds howner).unbound v (mem_of_mem_take hv)
      · rw [hdvd]
        exact hgate

theorem allocWithVirtual (h : EndInv cfg s live) (howner : cfg.isIdOwner = false)
    {peer : Option Int} {vs : List Nat} (hvs : vs.Nodup)
    (hunbound : ∀ v ∈ vs, s.virtualToPhysical v = none)
    (heq : s.allocWithVirtual cfg peer vs = some t) :
    ∃ live', EndInv cfg t live' ∧ ∃ drained new, Purchase cfg s t vs drained new := by
  obtain ⟨t₀, drained, new, hlen, htaken, rfl⟩ := allocBind_taken rfl heq h.eager_holes
  exact ⟨_, h.bindGiven howner htaken hlen.symm hvs hunbound, drained, new, hunbound, hlen, t₀,
    htaken, rfl⟩

/-- `alloc_extend` and `alloc_decode` keep the invariant, also where they return `None`. -/
theorem allocPaged (h : EndInv cfg s live) {peer flushed : Option Int} {n bound : Nat}
    {idx : List Nat} {out : Option (List Nat)}
    (heq : s.allocPaged cfg peer flushed n bound idx = some (t, out)) :
    ∃ live', EndInv cfg t live' ∧ Paid cfg s t peer flushed n out := by
  unfold MultiEndedAllocator.allocPaged at heq
  split at heq
  · cases heq
  next howner =>
  have howner : cfg.isIdOwner = true := by simpa using howner
  split at heq
  · cases heq
    exact ⟨live, h, .inl ⟨rfl, .inl rfl⟩⟩
  next hn =>
  have hn : n ≤ s.freeVirtualIds.length := by omega
  cases hgate : s.gate cfg peer flushed (n * cfg.pageSize) with
  | none =>
    rw [hgate] at heq
    cases heq
    exact ⟨live, h, .inl ⟨rfl, .inl rfl⟩⟩
  | some view =>
    rw [hgate] at heq
    dsimp only at heq
    split at heq
    · cases heq
    cases hbind : s.allocBind cfg view (s.freeVirtualIds.take n) n with
    | none =>
      rw [hbind] at heq
      cases heq
      exact ⟨live, h, .inl ⟨rfl, .inl rfl⟩⟩
    | some t' =>
      rw [hbind] at heq
      cases heq
      have htake : (s.freeVirtualIds.take n).length = n := by
        rw [length_take]
        omega
      obtain ⟨t₀, drained, new, hlen, htaken, rfl⟩ := allocBind_taken htake hbind h.eager_holes
      have hids : t₀.freeVirtualIds = s.freeVirtualIds := by rw [htaken.frame]
      have hown := h.bindOwn howner htaken hlen hn
      refine ⟨live ++ (drained ++ new), ?_, .inr ⟨view, drained, new,
        ⟨?_, hlen.trans htake.symm, t₀, htaken, rfl⟩, hn, hgate⟩⟩
      · simp only [MultiEndedAllocator.bind, hids] at hown ⊢
        exact hown
      · intro v hv
        exact (h.virtualIds howner).unbound v (mem_of_mem_take hv)

end EndInv

end Sglang.MemCache
