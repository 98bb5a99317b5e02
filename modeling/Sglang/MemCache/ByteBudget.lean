import Mathlib
import Sglang.MemCache.UnifiedPairRuns

/-!
# The Bytes Between the Two Ends

- `le_phases`: the three phases of `UnifiedSWATokenToKVPoolAllocator.available_size` miss no page,
- `availableSize_isGreatest`: what it reports is the most that both ends can take,
- `extendWatermark_frontier_iff`: when `_extend_watermark` respects the byte frontier of the peer.
-/

namespace Sglang.MemCache

open Lib
open MultiEndedAllocator

/-! ## Section 1: The joint budget -/

/-- Both ends take `n` pages, holes first: `a` holes on the one and `b` on the other end. If the
bytes that both extend by are there, the three phases count `n`. -/
theorem le_phases {n a b e e' g : Int} (hab : a ≤ b) (he : 0 < e) (he' : 0 < e') (hg : 0 ≤ g)
    (hn : max 0 (n - a) * e + max 0 (n - b) * e' ≤ g) :
    n ≤ a + min (b - a) (g / e) + (g - min (b - a) (g / e) * e) / (e + e') := by
  have hq : g / e * e ≤ g := Int.ediv_mul_le g he.ne'
  have hused : min (b - a) (g / e) * e ≤ g :=
    (mul_le_mul_of_nonneg_right (min_le_right _ _) he.le).trans hq
  have hk3 : 0 ≤ (g - min (b - a) (g / e) * e) / (e + e') := Int.ediv_nonneg (by omega) (by omega)
  have hother : 0 ≤ max 0 (n - b) * e' := mul_nonneg (le_max_left _ _) he'.le
  rcases le_or_gt n a with hna | hna
  · have : 0 ≤ g / e := Int.ediv_nonneg hg he.le
    omega
  rw [max_eq_right (by omega : 0 ≤ n - a)] at hn
  rcases le_or_gt n b with hnb | hnb
  · -- the second end has holes enough
    have : n - a ≤ g / e := Int.le_ediv_of_mul_le he (by omega)
    omega
  · rw [max_eq_right (by omega : 0 ≤ n - b)] at hn
    have hroom : b - a ≤ g / e := by
      apply Int.le_ediv_of_mul_le he
      have : (b - a) * e ≤ (n - a) * e := mul_le_mul_of_nonneg_right (by omega) he.le
      have : 0 ≤ (n - b) * e' := mul_nonneg (by omega) he'.le
      omega
    rw [min_eq_left hroom]
    have hboth : n - b ≤ (g - (b - a) * e) / (e + e') := by
      apply Int.le_ediv_of_mul_le (by omega)
      have : (n - b) * (e + e') = (n - a) * e + (n - b) * e' - (b - a) * e := by ring
      omega
    omega

/-- The pages that an end may still add to its index space. -/
def EndConfig.indexRoom (cfg : EndConfig) (s : MultiEndedAllocator) : Int :=
  cfg.numPages - cfg.minPageIndex - s.allocatedPages cfg

/-- Both ends can take `n` pages: each has the indices for the pages its holes do not give, and the
gap has the bytes. -/
def Pair.Takes (cfg : PairConfig) (S : Pair) (n : Int) : Prop :=
  max 0 (n - S.full.freePhysPages.length) ≤ cfg.fullEnd.indexRoom S.full ∧
  max 0 (n - S.other.freePhysPages.length) ≤ cfg.otherEnd.indexRoom S.other ∧
  max 0 (n - S.full.freePhysPages.length) * cfg.fullEnd.entryBytesPerPage +
      max 0 (n - S.other.freePhysPages.length) * cfg.otherEnd.entryBytesPerPage ≤ S.gapBytes cfg

section Joint

variable {cfg : PairConfig} {S : Pair}

theorem gapBytes_nonneg (cfg : PairConfig) (S : Pair) : 0 ≤ S.gapBytes cfg := by
  rw [gapBytes_eq]
  exact le_max_left _ _

/-- What the three phases count, with `a` and `b` holes, pages of `e` and `e'` bytes and `g` bytes
between the ends: the end with fewer holes extends in the second phase, both extend in the third. -/
def phases (a b e e' g : Int) : Int :=
  min a b + min ((if a ≤ b then b else a) - min a b) (g / if a ≤ b then e else e') +
    (g - min ((if a ≤ b then b else a) - min a b) (g / if a ≤ b then e else e') *
      if a ≤ b then e else e') / (e + e')

theorem le_phases_iff {n a b e e' g : Int} (he : 0 < e) (he' : 0 < e') (hg : 0 ≤ g) :
    n ≤ phases a b e e' g ↔ max 0 (n - a) * e + max 0 (n - b) * e' ≤ g := by
  unfold phases
  by_cases hab : a ≤ b
  · simp only [if_pos hab, min_eq_left hab]
    exact ⟨phases_room hab he he' hg, le_phases hab he he' hg⟩
  · have hba : b ≤ a := by omega
    simp only [if_neg hab, min_eq_right hba]
    rw [add_comm e e', add_comm (max 0 (n - a) * e)]
    exact ⟨phases_room hba he' he hg, le_phases hba he' he hg⟩

theorem availableSize_eq (hlazy : cfg.lazyCompaction = true) :
    S.availableSize cfg =
      min (phases S.full.freePhysPages.length S.other.freePhysPages.length
          cfg.fullEnd.entryBytesPerPage cfg.otherEnd.entryBytesPerPage (S.gapBytes cfg))
        (min (S.full.freePhysPages.length + cfg.fullEnd.indexRoom S.full)
          (S.other.freePhysPages.length + cfg.otherEnd.indexRoom S.other)) * cfg.full.pageSize := by
  have heF : (0 : Int) < cfg.fullEnd.entryBytesPerPage := by
    exact_mod_cast cfg.fullEnd.entryBytes_pos
  have heO : (0 : Int) < cfg.otherEnd.entryBytesPerPage := by
    exact_mod_cast cfg.otherEnd.entryBytes_pos
  unfold Pair.availableSize phases
  rw [if_neg (not_not_intro hlazy)]
  by_cases hab : (S.full.freePhysPages.length : Int) ≤ S.other.freePhysPages.length
  · simp only [if_pos hab, if_pos heF]
    rfl
  · simp only [if_neg hab, if_pos heO]
    rfl

/-- In lazy mode the pair reports the largest number of pages that both ends can take, in tokens. -/
theorem availableSize_isGreatest (hlazy : cfg.lazyCompaction = true)
    (hF : 0 ≤ cfg.fullEnd.indexRoom S.full) (hO : 0 ≤ cfg.otherEnd.indexRoom S.other) :
    ∃ k, S.availableSize cfg = k * cfg.full.pageSize ∧ IsGreatest { n | S.Takes cfg n } k := by
  have heF : (0 : Int) < cfg.fullEnd.entryBytesPerPage := by
    exact_mod_cast cfg.fullEnd.entryBytes_pos
  have heO : (0 : Int) < cfg.otherEnd.entryBytesPerPage := by
    exact_mod_cast cfg.otherEnd.entryBytes_pos
  have heq := availableSize_eq (S := S) hlazy
  generalize hk : min (phases S.full.freePhysPages.length S.other.freePhysPages.length
      cfg.fullEnd.entryBytesPerPage cfg.otherEnd.entryBytesPerPage (S.gapBytes cfg))
    (min (S.full.freePhysPages.length + cfg.fullEnd.indexRoom S.full)
      (S.other.freePhysPages.length + cfg.otherEnd.indexRoom S.other)) = k at heq
  have htakes : ∀ n : Int, S.Takes cfg n ↔ n ≤ k := by
    intro n
    rw [← hk, le_min_iff, le_min_iff, le_phases_iff heF heO (gapBytes_nonneg cfg S)]
    unfold Pair.Takes
    omega
  exact ⟨k, heq, (htakes k).mpr (le_refl k), fun n hn => (htakes n).mp hn⟩

end Joint

/-- Four tokens, of which one goes from the second pool and another from both: the pools have one
and two holes. -/
theorem availableSize_isGreatest_holes :
    ∃ S, run (UnifiedSwaOp.step smallSwaPair) (Pair.clear smallSwaPair)
        [.alloc noneFiredPair noneFired 4, .freeSwa [1], .free [2]] = some S ∧
      S.full.freePhysPages = [2] ∧ S.other.freePhysPages = [8, 9] ∧
      ∃ k, S.availableSize smallSwaPair = k * 1 ∧ IsGreatest { n | S.Takes smallSwaPair n } k := by
  have hrun : ((run (UnifiedSwaOp.step smallSwaPair) (Pair.clear smallSwaPair)
      [.alloc noneFiredPair noneFired 4, .freeSwa [1], .free [2]]).map fun S =>
        (S.full.freePhysPages, S.other.freePhysPages, smallSwaPair.fullEnd.indexRoom S.full,
          smallSwaPair.otherEnd.indexRoom S.other)) = some ([2], [8, 9], 7, 7) := by decide +kernel
  obtain ⟨S, hS, hfields⟩ := Option.map_eq_some_iff.mp hrun
  simp only [Prod.mk.injEq] at hfields
  obtain ⟨hfull, hother, hroomFull, hroomOther⟩ := hfields
  exact ⟨S, hS, hfull, hother, availableSize_isGreatest rfl (by omega) (by omega)⟩

/-! ## Section 2: The frontier of the peer -/

/-- The frontier of the peer that `_extend_watermark` looks at. -/
def EndConfig.peerFrontier (cfg peerCfg : EndConfig) (peer : MultiEndedAllocator) : Int :=
  match cfg.growDirection with
  | .up => peer.byteLowFrontier peerCfg
  | .down => peer.byteHighFrontier peerCfg

/-- `_extend_watermark` as a call: the state after it and what it returns. -/
def EndConfig.extendWatermark (cfg peerCfg : EndConfig) (own peer : MultiEndedAllocator)
    (numPages : Nat) :
    MultiEndedAllocator × Bool :=
  match own.extendWatermark cfg (some (cfg.peerFrontier peerCfg peer)) numPages with
  | some t => (t, true)
  | none => (own, false)

/-- The band is within the index space, and its bytes do not cross the frontier of the peer. -/
def EndConfig.Within (cfg peerCfg : EndConfig) (own peer : MultiEndedAllocator) : Prop :=
  match cfg.growDirection with
  | .up => own.watermark ≤ cfg.numPages ∧ own.byteHighFrontier cfg ≤ peer.byteLowFrontier peerCfg
  | .down => (cfg.minPageIndex : Int) - 1 ≤ own.watermark ∧
      peer.byteHighFrontier peerCfg ≤ own.byteLowFrontier cfg

/-- An extension that is granted stays within, and one that is refused changes nothing. -/
structure FrontierKept (cfg peerCfg : EndConfig) (own peer : MultiEndedAllocator) (numPages : Nat) :
    Prop where
  granted : (cfg.extendWatermark peerCfg own peer numPages).2 = true →
    cfg.Within peerCfg (cfg.extendWatermark peerCfg own peer numPages).1 peer
  refused : (cfg.extendWatermark peerCfg own peer numPages).2 = false →
    (cfg.extendWatermark peerCfg own peer numPages).1.watermark = own.watermark

/-- An end that grows down would take, as its new lowest page, the page that the frontier of the
peer lies inside of. -/
def EndConfig.SplitsPage (cfg peerCfg : EndConfig) (own peer : MultiEndedAllocator)
    (numPages : Nat) : Prop :=
  cfg.growDirection = .down ∧ (cfg.minPageIndex : Int) ≤ own.watermark - numPages + 1 ∧
    own.watermark - numPages + 1 = peer.byteHighFrontier peerCfg / cfg.entryBytesPerPage ∧
    ¬(cfg.entryBytesPerPage : Int) ∣ peer.byteHighFrontier peerCfg

section Frontier

variable {cfg peerCfg : EndConfig} {own peer t : MultiEndedAllocator} {n : Nat}

theorem extendWatermark_eq_some {f : Int} :
    own.extendWatermark cfg (some f) n = some t ↔
      match cfg.growDirection with
      | .up => (own.watermark + n ≤ cfg.numPages ∧ own.watermark + n ≤ f / cfg.entryBytesPerPage) ∧
          { own with watermark := own.watermark + n } = t
      | .down => ((cfg.minPageIndex : Int) - 1 ≤ own.watermark - n ∧
          f / cfg.entryBytesPerPage ≤ own.watermark - n + 1) ∧
          { own with watermark := own.watermark - n } = t := by
  unfold MultiEndedAllocator.extendWatermark
  cases cfg.growDirection with
  | up =>
    simp only [Option.mem_def, Option.some.injEq, exists_eq_left']
    split
    · simp; omega
    · split
      · simp; omega
      · simp; omega
  | down =>
    simp only [Option.mem_def, Option.some.injEq, exists_eq_left']
    split
    · simp; omega
    · split
      · simp; omega
      · simp; omega

theorem granted_iff :
    ((cfg.extendWatermark peerCfg own peer n).2 = true →
        cfg.Within peerCfg (cfg.extendWatermark peerCfg own peer n).1 peer) ↔
      ∀ t, own.extendWatermark cfg (some (cfg.peerFrontier peerCfg peer)) n = some t →
        cfg.Within peerCfg t peer := by
  unfold EndConfig.extendWatermark
  cases own.extendWatermark cfg (some (cfg.peerFrontier peerCfg peer)) n with
  | none => exact iff_of_true (fun h => by cases h) fun t h => by cases h
  | some u => exact ⟨fun h t ht => by cases ht; exact h rfl, fun h _ => h u rfl⟩

theorem refused_unchanged (h : (cfg.extendWatermark peerCfg own peer n).2 = false) :
    (cfg.extendWatermark peerCfg own peer n).1.watermark = own.watermark := by
  unfold EndConfig.extendWatermark at h ⊢
  cases hx : own.extendWatermark cfg (some (cfg.peerFrontier peerCfg peer)) n with
  | none => rfl
  | some t =>
    rw [hx] at h
    cases h

theorem within_up (hd : cfg.growDirection = .up)
    (h : own.extendWatermark cfg (some (cfg.peerFrontier peerCfg peer)) n = some t) :
    cfg.Within peerCfg t peer := by
  have he : (0 : Int) < cfg.entryBytesPerPage := by exact_mod_cast cfg.entryBytes_pos
  rw [extendWatermark_eq_some] at h
  unfold EndConfig.peerFrontier at h
  simp only [hd] at h
  obtain ⟨⟨hindex, hbytes⟩, rfl⟩ := h
  unfold EndConfig.Within byteHighFrontier
  simp only [hd]
  refine ⟨hindex, ?_⟩
  calc (own.watermark + n) * (cfg.entryBytesPerPage : Int)
      ≤ peer.byteLowFrontier peerCfg / cfg.entryBytesPerPage * cfg.entryBytesPerPage :=
        mul_le_mul_of_nonneg_right hbytes he.le
    _ ≤ peer.byteLowFrontier peerCfg := Int.ediv_mul_le _ he.ne'

/-- Growing down, it is not: the page that the frontier lies inside of counts as free. -/
theorem within_down (hd : cfg.growDirection = .down)
    (h : own.extendWatermark cfg (some (cfg.peerFrontier peerCfg peer)) n = some t) :
    cfg.Within peerCfg t peer ↔ ¬cfg.SplitsPage peerCfg own peer n := by
  have he : (0 : Int) < cfg.entryBytesPerPage := by exact_mod_cast cfg.entryBytes_pos
  rw [extendWatermark_eq_some] at h
  unfold EndConfig.peerFrontier at h
  simp only [hd] at h
  obtain ⟨⟨hindex, hbytes⟩, rfl⟩ := h
  unfold EndConfig.Within EndConfig.SplitsPage byteLowFrontier
  simp only [hd]
  generalize peer.byteHighFrontier peerCfg = f at hbytes ⊢
  have hcross : f ≤ (own.watermark - n + 1) * cfg.entryBytesPerPage ↔
      ¬(own.watermark - n + 1 = f / cfg.entryBytesPerPage ∧
        ¬(cfg.entryBytesPerPage : Int) ∣ f) := by
    constructor
    · rintro hle ⟨hpage, hnot⟩
      apply hnot
      have hdiv := Int.ediv_mul_le f he.ne'
      rw [hpage] at hle
      exact ⟨f / cfg.entryBytesPerPage, by rw [mul_comm]; omega⟩
    · intro hnot
      by_cases hpage : own.watermark - n + 1 = f / cfg.entryBytesPerPage
      · have hdvd := Classical.not_not.mp fun h => hnot ⟨hpage, h⟩
        rw [hpage, Int.ediv_mul_cancel hdvd]
      · -- a page further in is past the frontier
        have hlt := Int.lt_ediv_add_one_mul_self f he
        have hle : (f / cfg.entryBytesPerPage + 1) * cfg.entryBytesPerPage ≤
            (own.watermark - n + 1) * cfg.entryBytesPerPage :=
          mul_le_mul_of_nonneg_right (by omega) he.le
        omega
  rw [hcross]
  constructor
  · rintro ⟨-, hnot⟩ ⟨-, -, hpage, hsplit⟩
    exact hnot ⟨hpage, hsplit⟩
  · intro hnot
    refine ⟨hindex, ?_⟩
    rintro ⟨hpage, hsplit⟩
    exact hnot ⟨trivial, by omega, hpage, hsplit⟩

end Frontier

/-- The division by the page size rounds the frontier of the peer down. That is the safe side for an
end that grows up; one that grows down crosses the frontier exactly where it takes the page the
frontier lies inside of. -/
theorem extendWatermark_frontier_iff (cfg peerCfg : EndConfig) (own peer : MultiEndedAllocator)
    (numPages : Nat) :
    FrontierKept cfg peerCfg own peer numPages ↔ ¬cfg.SplitsPage peerCfg own peer numPages := by
  have hkept : FrontierKept cfg peerCfg own peer numPages ↔
      ∀ t, own.extendWatermark cfg (some (cfg.peerFrontier peerCfg peer)) numPages = some t →
        cfg.Within peerCfg t peer :=
    ⟨fun h => granted_iff.mp h.granted, fun h => ⟨granted_iff.mpr h, refused_unchanged⟩⟩
  rw [hkept]
  cases hd : cfg.growDirection with
  | up =>
    apply iff_of_true
    · exact fun t h => within_up hd h
    · rintro ⟨hdown, -⟩
      rw [hd] at hdown
      cases hdown
  | down =>
    constructor
    · intro h hsplit
      -- the page is inside the index space, so the extension is granted
      have hgrant : own.extendWatermark cfg (some (cfg.peerFrontier peerCfg peer)) numPages =
          some { own with watermark := own.watermark - numPages } := by
        rw [extendWatermark_eq_some]
        unfold EndConfig.peerFrontier
        obtain ⟨-, hindex, hpage, -⟩ := hsplit
        simp only [hd]
        exact ⟨⟨by omega, hpage.ge⟩, trivial⟩
      exact (within_down hd hgrant).mp (h _ hgrant) hsplit
    · intro h t ht
      exact (within_down hd ht).mpr h

/-- Twelve bytes with pages of three bytes at the full end, which grows up, and of two at the
other. -/
def mixedPair : PairConfig where
  totalBytes := 12
  full := ⟨3, Nat.succ_pos 2, 1, Nat.one_pos⟩
  other := ⟨2, Nat.succ_pos 1, 1, Nat.one_pos⟩
  fullDirection := .up
  otherIsIdOwner := true
  lazyCompaction := true

/-- The full end holds two pages, up to byte 9. Two pages of the other end are granted, from byte 8
on. -/
theorem extendWatermark_crosses :
    ∃ S, run (UnifiedMambaOp.step mixedPair) (Pair.clear mixedPair) [.alloc noneFired 2] = some S ∧
      (mixedPair.otherEnd.extendWatermark mixedPair.fullEnd S.other S.full 2).2 = true ∧
      ¬FrontierKept mixedPair.otherEnd mixedPair.fullEnd S.other S.full 2 := by
  have hrun : ((run (UnifiedMambaOp.step mixedPair) (Pair.clear mixedPair) [.alloc noneFired 2]).map
      fun S => ((mixedPair.otherEnd.extendWatermark mixedPair.fullEnd S.other S.full 2).2,
        (mixedPair.otherEnd.extendWatermark mixedPair.fullEnd S.other S.full 2).1.watermark,
        S.full.watermark)) = some (true, 3, 3) := by decide +kernel
  obtain ⟨S, hS, hfields⟩ := Option.map_eq_some_iff.mp hrun
  simp only [Prod.mk.injEq] at hfields
  obtain ⟨hgrant, hother, hfull⟩ := hfields
  refine ⟨S, hS, hgrant, fun h => ?_⟩
  have hwithin : S.full.watermark * 3 ≤
      ((mixedPair.otherEnd.extendWatermark mixedPair.fullEnd S.other S.full 2).1.watermark + 1) *
      2 :=
    (h.granted hgrant).2
  rw [hother, hfull] at hwithin
  exact absurd hwithin (by decide)

end Sglang.MemCache
