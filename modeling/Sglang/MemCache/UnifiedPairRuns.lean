import Sglang.MemCache.UnifiedPairApart
import Sglang.MemCache.MultiEndedRuns

/-!
# Two-Ended Pools Never Overlap

Runs of the two composite allocators over one buffer.

- `PairInv`: both ends keep their invariant and stay apart,
- `UnifiedSwaOp`, `UnifiedMambaOp`: the calls on the two composites,
- `PairInv.swaStep`, `PairInv.mambaStep`: a call returns and keeps the invariant,
- `PoolsDisjoint`: no byte belongs to live pages of both ends, or to a live page and the sink.

A non-urgent flush that replaces an entry of `_pending_reuse` breaks the band of its end, and with
it all this (`UnifiedSwaOp.Safe`, `UnifiedMambaOp.Safe`).
-/

namespace Sglang.MemCache

open Lib
open MultiEndedAllocator

/-! ## Section 1: The invariant -/

/-- The invariant of a pair. -/
structure PairInv (cfg : PairConfig) (S : Pair) : Prop where
  full : ∃ live, EndInv cfg.fullEnd S.full live
  other : ∃ live, EndInv cfg.otherEnd S.other live
  apart : Apart cfg.fullEnd cfg.otherEnd S.full S.other
  /-- The free groups are those of the pair. -/
  full_group : S.full.inFreeGroup = false
  other_group : S.other.inFreeGroup = false
  group_nil : S.inFreeGroup = false → S.freeGroup = []
  group : S.full.Freeable cfg.fullEnd S.freeGroup.flatten
  /-- The sliding-window end binds virtual pages of the full end. -/
  bound : cfg.otherIsIdOwner = false → ∀ v, (S.other.virtualToPhysical v).isSome →
    (S.full.virtualToPhysical v).isSome

theorem freeable_nil {cfg : EndConfig} {s : MultiEndedAllocator} :
    s.Freeable cfg ([] : List (List Nat)).flatten :=
  ⟨by simp, by simp⟩

theorem EndInv.exists_setEvents {cfg : EndConfig} {s : MultiEndedAllocator}
    (h : ∃ live, EndInv cfg s live) (latest : Option Event)
    (inflight : Option (Event × List Nat)) :
    ∃ live, EndInv cfg
      { s with latestForwardDoneEvent := latest, inflightForward := inflight } live := by
  obtain ⟨live, h⟩ := h
  exact ⟨live, h.setEvents latest inflight⟩

namespace PairInv

variable {cfg : PairConfig} {S : Pair}

theorem init (cfg : PairConfig) : PairInv cfg (Pair.clear cfg) where
  full := ⟨[], EndInv.init _⟩
  other := ⟨[], EndInv.init _⟩
  apart := by
    have hkey : ∀ c : EndConfig, c.key (MultiEndedAllocator.clear c).watermark = c.lo := by
      intro c
      unfold MultiEndedAllocator.clear EndConfig.key EndConfig.lo GrowDirection.key
      cases c.growDirection <;> simp only
      omega
    exact .inr ⟨hkey _, hkey _⟩
  full_group := rfl
  other_group := rfl
  group_nil := fun _ => rfl
  group := freeable_nil
  bound := fun _ v hv => hv

theorem shrinkOther (h : PairInv cfg S) {t : MultiEndedAllocator} {freed : List Nat}
    (hinv : ∃ live, EndInv cfg.otherEnd t live) (hs : Shrinks cfg.otherEnd S.other t freed) :
    PairInv cfg { S with other := t } := by
  obtain ⟨live, hinv⟩ := hinv
  refine { h with other := ⟨live, hinv⟩, apart := ?_, other_group := ?_, bound := ?_ }
  · have hopp : cfg.fullEnd.growDirection = cfg.otherEnd.growDirection.opposite := by
      rw [cfg.opposite]
      cases cfg.fullEnd.growDirection <;> rfl
    exact ((h.apart.symm cfg.opposite).shrink hs.watermark_le hinv.watermark.1).symm hopp
  · exact hs.in_group.trans h.other_group
  · intro ho v hv
    exact h.bound ho v ((hs.isSome_iff v).mp hv).1

theorem shrinkFull (h : PairInv cfg S) {t : MultiEndedAllocator} {freed : List Nat}
    (hinv : ∃ live, EndInv cfg.fullEnd t live) (hs : Shrinks cfg.fullEnd S.full t freed)
    (hgroup : t.Freeable cfg.fullEnd S.freeGroup.flatten)
    (hother : cfg.otherIsIdOwner = false → ∀ x ∈ freed,
      S.other.virtualToPhysical (x / cfg.full.pageSize) = none) :
    PairInv cfg { S with full := t } := by
  obtain ⟨live, hinv⟩ := hinv
  refine { h with
    full := ⟨live, hinv⟩, apart := ?_, full_group := ?_, group := hgroup, bound := ?_ }
  · exact h.apart.shrink hs.watermark_le hinv.watermark.1
  · exact hs.in_group.trans h.full_group
  · intro ho v hv
    refine (hs.isSome_iff v).mpr ⟨h.bound ho v hv, ?_⟩
    rintro x hx rfl
    have hnone := hother ho x hx
    have hv : (S.other.virtualToPhysical (x / cfg.full.pageSize)).isSome := hv
    rw [hnone] at hv
    cases hv

theorem shrinkBoth (h : PairInv cfg S) {t u : MultiEndedAllocator}
    (hinvF : ∃ live, EndInv cfg.fullEnd t live) (hsF : Shrinks cfg.fullEnd S.full t [])
    (hinvO : ∃ live, EndInv cfg.otherEnd u live) (hsO : Shrinks cfg.otherEnd S.other u []) :
    PairInv cfg { S with full := t, other := u } := by
  have hfull := h.shrinkFull hinvF hsF (hsF.freeable h.group) (by simp)
  exact hfull.shrinkOther hinvO hsO

theorem flushOpportunistic (h : PairInv cfg S) (q : PairQueries)
    (hokF : S.full.overwrites cfg.fullEnd q.full = false)
    (hokO : S.other.overwrites cfg.otherEnd q.other = false) :
    ∃ T, S.flushOpportunistic cfg q = some T ∧ PairInv cfg T := by
  unfold Pair.flushOpportunistic
  split
  · exact ⟨S, rfl, h⟩
  · obtain ⟨live, hF⟩ := h.full
    obtain ⟨live', hO⟩ := h.other
    obtain ⟨r, lr, heq, hinv, hs⟩ := hF.flushOpportunistic_shrinks q.full hokF
    obtain ⟨r', lr', heq', hinv', hs'⟩ := hO.flushOpportunistic_shrinks q.other hokO
    simp only [heq, heq', Option.bind_eq_bind, Option.bind_some]
    exact ⟨_, rfl, h.shrinkBoth ⟨lr, hinv⟩ hs ⟨lr', hinv'⟩ hs'⟩

theorem freeGroupBegin (h : PairInv cfg S) : PairInv cfg S.freeGroupBegin :=
  { h with
    group_nil := fun hg => absurd hg (by simp [Pair.freeGroupBegin])
    group := freeable_nil }

theorem freeInGroup (h : PairInv cfg S) (hin : S.inFreeGroup = true) {idx : List Nat}
    (hfree : S.full.Freeable cfg.fullEnd (S.freeGroup.flatten ++ idx)) :
    PairInv cfg { S with freeGroup := S.freeGroup ++ [idx] } :=
  { h with
    group_nil := fun hg => by
      have hg : S.inFreeGroup = false := hg
      rw [hin] at hg
      cases hg
    group := by simpa using hfree }

end PairInv

/-! ## Section 2: Allocations of one end -/

section Specs

variable {cfg peerCfg : EndConfig} {own peer : MultiEndedAllocator} {live peerLive : List Int}

section

variable (hown : EndInv cfg own live) (hpeer : EndInv peerCfg peer peerLive)
  (hopp : peerCfg.growDirection = cfg.growDirection.opposite) (hap : Apart cfg peerCfg own peer)
  (q : Queries)
include hown hpeer hopp hap q

theorem alloc_spec (needSize : Nat) :
    ∃ own' peer' out, cfg.alloc peerCfg q needSize own peer = some (own', peer', out) ∧
      Allocates cfg peerCfg own peer own' peer' (needSize / cfg.pageSize) out := by
  apply allocWithPeer_spec hown hpeer hopp hap q
  · intro front flushed t out heq
    exact hown.alloc heq
  · intro hgate
    simp only [ne_eq, Bool.decide_and, Bool.and_eq_true, decide_eq_true_eq] at hgate
    exact (Nat.div_mul_cancel (Nat.dvd_of_mod_eq_zero hgate.2)).symm

theorem allocExtend_spec (reqs : List Allocator.ExtendReq) :
    ∃ own' peer' out, cfg.allocExtend peerCfg q reqs own peer = some (own', peer', out) ∧
      Allocates cfg peerCfg own peer own' peer' (Allocator.getNumNewPages cfg.pageSize reqs)
        out := by
  unfold EndConfig.allocExtend
  dsimp only
  apply allocWithPeer_spec hown hpeer hopp hap q
  · intro front flushed t out heq
    exact hown.allocPaged heq
  · exact fun _ => rfl

theorem allocDecode_spec (reqs : List Allocator.ExtendReq) :
    ∃ own' peer' out, cfg.allocDecode peerCfg q reqs own peer = some (own', peer', out) ∧
      Allocates cfg peerCfg own peer own' peer' (Allocator.getNumNewPagesDecode cfg.pageSize reqs)
        out := by
  unfold EndConfig.allocDecode
  dsimp only
  apply allocWithPeer_spec hown hpeer hopp hap q
  · intro front flushed t out heq
    exact hown.allocPaged heq
  · exact fun _ => rfl

end

end Specs

namespace PairInv

variable {cfg : PairConfig} {S : Pair}

theorem grows_freeable {c : EndConfig} {s t : MultiEndedAllocator} {vs idx : List Nat}
    (h : Grows c s t [] ∨ Grows c s t vs) (hfree : s.Freeable c idx) : t.Freeable c idx := by
  rcases h with h | h
  · exact h.freeable hfree
  · exact h.freeable hfree

theorem allocatesFull (h : PairInv cfg S) {full other : MultiEndedAllocator} {n : Nat}
    {out : Outcome} (ha : Allocates cfg.fullEnd cfg.otherEnd S.full S.other full other n out) :
    PairInv cfg { S with full := full, other := other } where
  full := ha.own_inv
  other := ha.peer_inv
  apart := ha.apart
  full_group := by
    rcases ha.grows with hg | hg <;> exact hg.in_group.trans h.full_group
  other_group := ha.peer_shrinks.in_group.trans h.other_group
  group_nil := h.group_nil
  group := grows_freeable ha.grows h.group
  bound := fun ho v hv => by
    have hbefore := h.bound ho v ((ha.peer_shrinks.isSome_iff v).mp hv).1
    rcases ha.grows with hg | hg <;> exact (hg.isSome_iff v).mpr (.inl hbefore)

theorem allocatesOther (h : PairInv cfg S) (hmamba : cfg.otherIsIdOwner = true)
    {full other : MultiEndedAllocator} {n : Nat} {out : Outcome}
    (ha : Allocates cfg.otherEnd cfg.fullEnd S.other S.full other full n out) :
    PairInv cfg { S with full := full, other := other } where
  full := ha.peer_inv
  other := ha.own_inv
  apart := ha.apart.symm (by
    rw [cfg.opposite]
    cases cfg.fullEnd.growDirection <;> rfl)
  full_group := ha.peer_shrinks.in_group.trans h.full_group
  other_group := by
    rcases ha.grows with hg | hg <;> exact hg.in_group.trans h.other_group
  group_nil := h.group_nil
  group := ha.peer_shrinks.freeable h.group
  bound := fun ho => absurd ho (by simp [hmamba])

theorem jointCheck (h : PairInv cfg S) (q : PairQueries) (need : Nat) :
    ∃ T room, S.jointCheck cfg q need = some (T, room) ∧ PairInv cfg T ∧
      (room = true → (need : Int) ≤ T.availableSize cfg) := by
  unfold Pair.jointCheck
  split
  · split
    · exact ⟨S, _, rfl, h, by simp⟩
    · obtain ⟨live, hF⟩ := h.full
      obtain ⟨live', hO⟩ := h.other
      obtain ⟨r, lr, heq, hinv, hs⟩ := hF.flushUrgent_shrinks q.full
      obtain ⟨r', lr', heq', hinv', hs'⟩ := hO.flushUrgent_shrinks q.other
      simp only [heq, heq', Option.bind_eq_bind, Option.bind_some]
      exact ⟨_, _, rfl, h.shrinkBoth ⟨lr, hinv⟩ hs ⟨lr', hinv'⟩ hs', by simp⟩
  · next hle => exact ⟨S, true, rfl, h, fun _ => by omega⟩

theorem full_available (h : PairInv cfg S) {n : Nat}
    (hn : (n * cfg.full.pageSize : Int) ≤ S.availableSize cfg) :
    (n * cfg.fullEnd.pageSize : Int) ≤
      S.full.availableSize cfg.fullEnd (some (S.other.frontier cfg.otherEnd)) := by
  obtain ⟨live, hF⟩ := h.full
  obtain ⟨live', hO⟩ := h.other
  obtain ⟨hbytes, hindex⟩ := joint_room hF hO hn
  have heF : (0 : Int) < cfg.fullEnd.entryBytesPerPage := by
    exact_mod_cast cfg.fullEnd.entryBytes_pos
  have heO : (0 : Int) ≤ max 0 ((n : Int) - S.other.freePhysPages.length) *
      cfg.otherEnd.entryBytesPerPage := by
    apply mul_nonneg (le_max_left _ _)
    omega
  unfold MultiEndedAllocator.availableSize
  rw [EndConfig.currentGapBytes_eq]
  apply mul_le_mul_of_nonneg_right _ (by omega)
  have hpages : max 0 ((n : Int) - S.full.freePhysPages.length) ≤
      max 0 (S.gap cfg) / cfg.fullEnd.entryBytesPerPage := by
    apply Int.le_ediv_of_mul_le heF
    omega
  have hdrain : (if cfg.fullEnd.lazyCompaction then (S.full.freePhysPages.length : Int) else 0) =
      S.full.freePhysPages.length := by
    split
    · rfl
    · next he =>
      rw [(hF.eager (by simpa using he)).1]
      rfl
  rw [hdrain]
  change _ ≤ min (max 0 (S.gap cfg) / cfg.fullEnd.entryBytesPerPage) _ + _
  omega

theorem bindBoth (h : PairInv cfg S) (hswa : cfg.otherIsIdOwner = false) {n : Nat}
    (hn : (n * cfg.full.pageSize : Int) ≤ S.availableSize cfg) {full other : MultiEndedAllocator}
    (hinvF : ∃ live, EndInv cfg.fullEnd full live)
    (hinvO : ∃ live, EndInv cfg.otherEnd other live)
    (hF : Grows cfg.fullEnd S.full full (S.full.freeVirtualIds.take n))
    (hO : Grows cfg.otherEnd S.other other (S.full.freeVirtualIds.take n)) :
    PairInv cfg { S with full := full, other := other } where
  full := hinvF
  other := hinvO
  apart := by
    obtain ⟨_, hinvF'⟩ := h.full
    obtain ⟨_, hinvO'⟩ := h.other
    obtain ⟨kF, hkeyF, hkF⟩ := hF.key
    obtain ⟨kO, hkeyO, hkO⟩ := hO.key
    obtain ⟨hbytes, _⟩ := joint_room hinvF' hinvO' hn
    have heF : (0 : Int) < cfg.fullEnd.entryBytesPerPage := by
      exact_mod_cast cfg.fullEnd.entryBytes_pos
    have heO : (0 : Int) < cfg.otherEnd.entryBytesPerPage := by
      exact_mod_cast cfg.otherEnd.entryBytes_pos
    rw [List.length_take] at hkF hkO
    -- each end extends by what its holes do not give
    have hleF : (kF * cfg.fullEnd.entryBytesPerPage : Int) ≤
        max 0 ((n : Int) - S.full.freePhysPages.length) * cfg.fullEnd.entryBytesPerPage := by
      apply mul_le_mul_of_nonneg_right _ heF.le
      by_cases hz : kF = 0
      · rw [hz]
        exact le_max_left _ _
      · have := hkF hz
        omega
    have hleO : (kO * cfg.otherEnd.entryBytesPerPage : Int) ≤
        max 0 ((n : Int) - S.other.freePhysPages.length) * cfg.otherEnd.entryBytesPerPage := by
      apply mul_le_mul_of_nonneg_right _ heO.le
      by_cases hz : kO = 0
      · rw [hz]
        exact le_max_left _ _
      · have := hkO hz
        omega
    have hroom : cfg.fullEnd.room full (other.frontier cfg.otherEnd) =
        S.gap cfg - kF * cfg.fullEnd.entryBytesPerPage - kO * cfg.otherEnd.entryBytesPerPage := by
      rw [← EndConfig.room_comm cfg.opposite, EndConfig.room_of_key hkeyO,
        EndConfig.room_comm cfg.opposite, EndConfig.room_of_key hkeyF]
      rfl
    by_cases hz : kF = 0 ∧ kO = 0
    · -- neither end extends
      rw [hz.1] at hkeyF
      rw [hz.2] at hkeyO
      rcases h.apart with hr | ⟨hkF', hkO'⟩
      · refine .inl ?_
        change 0 ≤ cfg.fullEnd.room full (other.frontier cfg.otherEnd)
        rw [hroom, hz.1, hz.2]
        have hr : 0 ≤ S.gap cfg := hr
        simpa using hr
      · refine .inr ⟨?_, ?_⟩
        · change cfg.fullEnd.key full.watermark = _
          rw [hkeyF, hkF']
          simp
        · change cfg.otherEnd.key other.watermark = _
          rw [hkeyO, hkO']
          simp
    · refine .inl ?_
      change 0 ≤ cfg.fullEnd.room full (other.frontier cfg.otherEnd)
      rw [hroom]
      have hposF : (0 : Int) ≤ kF * cfg.fullEnd.entryBytesPerPage := by positivity
      have hposO : (0 : Int) ≤ kO * cfg.otherEnd.entryBytesPerPage := by positivity
      have hsum : (0 : Int) < kF * cfg.fullEnd.entryBytesPerPage +
          kO * cfg.otherEnd.entryBytesPerPage := by
        rcases Nat.eq_zero_or_pos kF with hF0 | hF0
        · have hO0 : 0 < kO := Nat.pos_of_ne_zero fun hO0 => hz ⟨hF0, hO0⟩
          have : (0 : Int) < kO * cfg.otherEnd.entryBytesPerPage :=
            mul_pos (by exact_mod_cast hO0) heO
          omega
        · have : (0 : Int) < kF * cfg.fullEnd.entryBytesPerPage :=
            mul_pos (by exact_mod_cast hF0) heF
          omega
      omega
  full_group := hF.in_group.trans h.full_group
  other_group := hO.in_group.trans h.other_group
  group_nil := h.group_nil
  group := hF.freeable h.group
  bound := fun _ v hv => by
    rcases (hO.isSome_iff v).mp hv with hv | hv
    · exact (hF.isSome_iff v).mpr (.inl (h.bound hswa v hv))
    · exact (hF.isSome_iff v).mpr (.inr hv)

end PairInv

/-! ## Section 3: The calls of the sliding-window pair -/

theorem BandInv.live_pos {cfg : EndConfig} {s : MultiEndedAllocator} {live : List Int}
    (h : BandInv cfg s live) {p : Int} (hp : p ∈ live) : (cfg.minPageIndex : Int) ≤ p := by
  have hband := h.band.mem_key.mp (List.mem_append_left _ (List.mem_append_left _ hp))
  obtain ⟨hlo, hhi⟩ := h.watermark
  unfold EndConfig.lo EndConfig.hi EndConfig.key GrowDirection.key at *
  cases hd : cfg.growDirection <;> simp only [hd] at hband hlo hhi <;> omega

namespace PairInv

variable {cfg : PairConfig} {S : Pair}

theorem allocBoth (h : PairInv cfg S) (hswa : cfg.otherIsIdOwner = false) (q : PairQueries)
    {need n : Nat} (hneed : n * cfg.full.pageSize ≤ need)
    {call : MultiEndedAllocator → MultiEndedAllocator →
      Option (MultiEndedAllocator × MultiEndedAllocator × Outcome)}
    (hcall : ∀ T : Pair, PairInv cfg T → ∃ full other out, call T.full T.other =
      some (full, other, out) ∧
        Allocates cfg.fullEnd cfg.otherEnd T.full T.other full other n out) :
    ∃ r, S.allocBoth cfg q need n call = some r ∧ PairInv cfg r.1 := by
  obtain ⟨T, room, hcheck, hT, hroom⟩ := h.jointCheck q need
  unfold Pair.allocBoth
  simp only [hcheck, Option.bind_eq_bind, Option.bind_some]
  cases room with
  | false => exact ⟨(T, some none), rfl, hT⟩
  | true =>
    have hn : (n * cfg.full.pageSize : Int) ≤ T.availableSize cfg := by
      have := hroom rfl
      have hneed : (n * cfg.full.pageSize : Int) ≤ need := by exact_mod_cast hneed
      omega
    obtain ⟨full, other, out, heq, ha⟩ := hcall T hT
    -- the full end had room, so it has not flushed the other
    obtain rfl : other = T.other := ha.peer_eq (hT.full_available hn)
    have hfull := hT.allocatesFull ha
    simp only [not_true_eq_false, if_false, heq, Option.bind_some]
    match out, ha with
    | none, _ => exact ⟨_, rfl, hfull⟩
    | some none, _ => exact ⟨_, rfl, hfull⟩
    | some (some ids), ha =>
      dsimp only
      cases hbind : T.other.allocWithVirtual cfg.otherEnd (some (full.frontier cfg.fullEnd))
          (T.full.freeVirtualIds.take n) with
      | none => exact ⟨_, rfl, hfull⟩
      | some other =>
        obtain ⟨live, hF⟩ := hT.full
        obtain ⟨live', hO⟩ := hT.other
        have hids := hF.virtualIds rfl
        -- a free virtual page of the full end is not bound on the other
        have hunbound : ∀ v ∈ T.full.freeVirtualIds.take n, T.other.virtualToPhysical v = none := by
          intro v hv
          rw [← Option.not_isSome_iff_eq_none]
          intro hsome
          have hbound := hT.bound hswa v hsome
          rw [hids.unbound v (List.mem_of_mem_take hv)] at hbound
          cases hbound
        obtain ⟨live₁, hinv, _, _, hbuy⟩ := hO.allocWithVirtual hswa
          ((List.take_sublist n _).nodup hids.nodup) hunbound hbind
        exact ⟨_, rfl, hT.bindBoth hswa hn ha.own_inv ⟨live₁, hinv⟩ (ha.bought ids rfl) hbuy.grows⟩

section

variable (h : PairInv cfg S) (hps : cfg.other.pageSize = cfg.full.pageSize)
include h hps

theorem freeable_liveTokens
    {idx : List Nat} (hnodup : cfg.full.pageSize = 1 → idx.Nodup) :
    S.other.Freeable cfg.otherEnd (S.liveTokens cfg idx) := by
  obtain ⟨live, hO⟩ := h.other
  refine ⟨fun x hx => ?_, fun hone => ?_⟩
  · have hx := (List.mem_filter.mp hx).2
    change S.other.Bound (x / cfg.other.pageSize)
    rw [hps]
    cases hv : S.other.virtualToPhysical (x / cfg.full.pageSize) with
    | none => simp [hv] at hx
    | some p =>
      refine ⟨fun hz => ?_, by rw [hv]; rfl⟩
      rw [hz, hO.anchor] at hv
      cases hv
      simp [hz, hO.anchor] at hx
  · have hone : cfg.other.pageSize = 1 := hone
    exact (hnodup (hps ▸ hone)).filter _

theorem freeSwa
    {idx : List Nat} (hnodup : cfg.full.pageSize = 1 → idx.Nodup) :
    ∃ T, S.freeSwa cfg idx = some T ∧ PairInv cfg T ∧ T.full = S.full ∧
      T.freeGroup = S.freeGroup ∧
      ∀ x ∈ idx, x / cfg.full.pageSize ≠ 0 →
        T.other.virtualToPhysical (x / cfg.full.pageSize) = none := by
  obtain ⟨live, hO⟩ := h.other
  have hfree := h.freeable_liveTokens hps hnodup
  obtain ⟨r, live', heq, hinv, hs⟩ := hO.free_shrinks h.other_group hfree
  -- a page that is still bound after this is not one of the tokens
  have hgone : ∀ x ∈ idx, x / cfg.full.pageSize ≠ 0 →
      (S.other.virtualToPhysical (x / cfg.full.pageSize)).isSome → x ∈ S.liveTokens cfg idx := by
    intro x hx hne hsome
    obtain ⟨p, hp⟩ := Option.isSome_iff_exists.mp hsome
    refine List.mem_filter.mpr ⟨hx, ?_⟩
    have hpos := hO.live_pos (hO.live_of_bound hne hp)
    have hmin := cfg.otherEnd.minPage_pos
    have hp0 : 0 < p := by omega
    rw [hp]
    exact decide_eq_true hp0
  unfold Pair.freeSwa
  by_cases hnil : S.liveTokens cfg idx = []
  · rw [if_pos hnil]
    refine ⟨S, rfl, h, rfl, rfl, fun x hx hne => ?_⟩
    rw [← Option.not_isSome_iff_eq_none]
    intro hsome
    have := hgone x hx hne hsome
    rw [hnil] at this
    cases this
  · simp only [if_neg hnil, heq, Option.bind_eq_bind, Option.bind_some]
    refine ⟨_, rfl, h.shrinkOther ⟨live', hinv⟩ hs, rfl, rfl, fun x hx hne => ?_⟩
    rw [← Option.not_isSome_iff_eq_none]
    intro hsome
    obtain ⟨hbefore, hnot⟩ := (hs.isSome_iff _).mp hsome
    apply hnot x (hgone x hx hne hbefore)
    change x / cfg.other.pageSize = _
    rw [hps]

theorem swaFreeNow
    (hnil : S.freeGroup = []) {idx : List Nat} (hfree : S.full.Freeable cfg.fullEnd idx) :
    ∃ T, S.swaFreeNow cfg idx = some T ∧ PairInv cfg T := by
  obtain ⟨T, heq, hT, hfull, hgroup, hgone⟩ := h.freeSwa hps hfree.nodup
  obtain ⟨live, hF⟩ := hT.full
  obtain ⟨r, live', hfreed, hinv, hs⟩ := hF.free_shrinks hT.full_group (hfull ▸ hfree)
  unfold Pair.swaFreeNow
  simp only [heq, hfreed, Option.bind_eq_bind, Option.bind_some]
  refine ⟨_, rfl, hT.shrinkFull ⟨live', hinv⟩ hs ?_ ?_⟩
  · rw [hgroup, hnil]
    exact freeable_nil
  · intro _ x hx
    exact hgone x hx (hfree.bound x hx).1

theorem swaFree {idx : List Nat}
    (hfree : S.full.Freeable cfg.fullEnd
      (if S.inFreeGroup then S.freeGroup.flatten ++ idx else idx)) :
    ∃ T, S.swaFree cfg idx = some T ∧ PairInv cfg T := by
  unfold Pair.swaFree
  split
  · exact ⟨S, rfl, h⟩
  · by_cases hin : S.inFreeGroup = true
    · rw [if_pos hin] at hfree ⊢
      exact ⟨_, rfl, h.freeInGroup hin hfree⟩
    · rw [if_neg hin] at hfree ⊢
      exact h.swaFreeNow hps (h.group_nil (by simpa using hin)) hfree

theorem swaFreeGroupEnd :
    ∃ T, S.swaFreeGroupEnd cfg = some T ∧ PairInv cfg T := by
  unfold Pair.swaFreeGroupEnd
  split
  · have hempty : PairInv cfg { S with inFreeGroup := false, freeGroup := [] } :=
      { h with group_nil := fun _ => rfl, group := freeable_nil }
    apply hempty.swaFree hps
    exact h.group
  · next hnil =>
    exact ⟨_, rfl, { h with group_nil := fun _ => by simpa using hnil }⟩

end

theorem setInflight_eq (c : EndConfig) (s : MultiEndedAllocator) (event : Event)
    (tokens : List Nat) :
    ∃ x, s.setInflightForward c event tokens = { s with inflightForward := x } := by
  unfold setInflightForward
  split
  · exact ⟨s.inflightForward, rfl⟩
  · exact ⟨_, rfl⟩

theorem setLatest (h : PairInv cfg S) (event : Option Event) :
    PairInv cfg (S.setLatestForwardDoneEvent event) :=
  { full := EndInv.exists_setEvents h.full event S.full.inflightForward
    other := EndInv.exists_setEvents h.other event S.other.inflightForward
    apart := h.apart
    full_group := h.full_group
    other_group := h.other_group
    group_nil := h.group_nil
    group := ⟨h.group.bound, h.group.nodup⟩
    bound := h.bound }

theorem setInflight (h : PairInv cfg S) (event : Event) (tokens tokens' : List Nat) :
    PairInv cfg { S with
      full := S.full.setInflightForward cfg.fullEnd event tokens
      other := S.other.setInflightForward cfg.otherEnd event tokens' } := by
  obtain ⟨x, hx⟩ := setInflight_eq cfg.fullEnd S.full event tokens
  obtain ⟨y, hy⟩ := setInflight_eq cfg.otherEnd S.other event tokens'
  rw [hx, hy]
  exact
    { full := EndInv.exists_setEvents h.full S.full.latestForwardDoneEvent x
      other := EndInv.exists_setEvents h.other S.other.latestForwardDoneEvent y
      apart := h.apart
      full_group := h.full_group
      other_group := h.other_group
      group_nil := h.group_nil
      group := ⟨h.group.bound, h.group.nodup⟩
      bound := h.bound }

end PairInv

/-! ## Section 4: Runs -/

/-- The calls on a `UnifiedSWATokenToKVPoolAllocator`. -/
inductive UnifiedSwaOp where
  | alloc (q : PairQueries) (qGate : Queries) (needSize : Nat)
  | allocExtend (q : PairQueries) (qGate : Queries) (reqs : List Allocator.ExtendReq)
  | allocDecode (q : PairQueries) (qGate : Queries) (reqs : List Allocator.ExtendReq)
  | free (freeIndex : List Nat)
  | freeSwa (freeIndex : List Nat)
  | freeGroupBegin
  | freeGroupEnd
  | flushOpportunistic (q : PairQueries)
  | setLatestForwardDoneEvent (event : Option Event)
  | setInflightForward (event : Event) (tokens : List Nat)

/-- The calls on a `UnifiedMambaTokenToKVPoolAllocator` and its slot allocator. -/
inductive UnifiedMambaOp where
  | alloc (q : Queries) (needSize : Nat)
  | allocExtend (q : Queries) (reqs : List Allocator.ExtendReq)
  | allocDecode (q : Queries) (reqs : List Allocator.ExtendReq)
  | allocSlots (q : Queries) (needSize : Nat)
  | free (freeIndex : List Nat)
  | freeSlots (freeIndex : List Nat)
  | freeGroupBegin
  | freeGroupEnd
  | flushOpportunistic (q : PairQueries)
  | setLatestForwardDoneEvent (event : Option Event)
  | setInflightForward (event : Event) (tokens : List Nat)

/-- The tokens that `free` gives back now or at the end of the group may be freed. -/
def Pair.MayFree (cfg : PairConfig) (S : Pair) (freeIndex : List Nat) : Prop :=
  S.full.Freeable cfg.fullEnd (if S.inFreeGroup then S.freeGroup.flatten ++ freeIndex
    else freeIndex)

/-- A flush of the pair replaces no entry of `_pending_reuse`. -/
def Pair.SafeFlush (cfg : PairConfig) (S : Pair) (q : PairQueries) : Prop :=
  S.full.overwrites cfg.fullEnd q.full = false ∧ S.other.overwrites cfg.otherEnd q.other = false

instance (cfg : PairConfig) (S : Pair) (freeIndex : List Nat) :
    Decidable (S.MayFree cfg freeIndex) :=
  inferInstanceAs (Decidable (S.full.Freeable cfg.fullEnd _))

instance (cfg : PairConfig) (S : Pair) (q : PairQueries) : Decidable (S.SafeFlush cfg q) :=
  inferInstanceAs (Decidable (_ ∧ _))

namespace UnifiedSwaOp

variable (cfg : PairConfig)

def step (S : Pair) : UnifiedSwaOp → Option Pair
  | .alloc q qGate needSize => (S.swaAlloc cfg q qGate needSize).map Prod.fst
  | .allocExtend q qGate reqs => (S.swaAllocExtend cfg q qGate reqs).map Prod.fst
  | .allocDecode q qGate reqs => (S.swaAllocDecode cfg q qGate reqs).map Prod.fst
  | .free freeIndex => S.swaFree cfg freeIndex
  | .freeSwa freeIndex => S.freeSwa cfg freeIndex
  | .freeGroupBegin => some S.freeGroupBegin
  | .freeGroupEnd => S.swaFreeGroupEnd cfg
  | .flushOpportunistic q => S.flushOpportunistic cfg q
  | .setLatestForwardDoneEvent event => some (S.setLatestForwardDoneEvent event)
  | .setInflightForward event tokens => some (S.swaSetInflightForward cfg event tokens)

/-- What the caller promises: live tokens, none twice. -/
def Admissible (S : Pair) : UnifiedSwaOp → Prop
  | .free freeIndex => S.MayFree cfg freeIndex
  | .freeSwa freeIndex => cfg.full.pageSize = 1 → freeIndex.Nodup
  | _ => True

def Safe (S : Pair) : UnifiedSwaOp → Prop
  | .flushOpportunistic q => S.SafeFlush cfg q
  | _ => True

instance decidableAdmissible (S : Pair) : DecidablePred (Admissible cfg S)
  | .free freeIndex => inferInstanceAs (Decidable (S.MayFree cfg freeIndex))
  | .freeSwa freeIndex => inferInstanceAs (Decidable (cfg.full.pageSize = 1 → freeIndex.Nodup))
  | .alloc .. | .allocExtend .. | .allocDecode .. | .freeGroupBegin | .freeGroupEnd
  | .flushOpportunistic _ | .setLatestForwardDoneEvent _ | .setInflightForward .. => isTrue trivial

instance decidableSafe (S : Pair) : DecidablePred (Safe cfg S)
  | .flushOpportunistic q => inferInstanceAs (Decidable (S.SafeFlush cfg q))
  | .alloc .. | .allocExtend .. | .allocDecode .. | .free _ | .freeSwa _ | .freeGroupBegin
  | .freeGroupEnd | .setLatestForwardDoneEvent _ | .setInflightForward .. => isTrue trivial

end UnifiedSwaOp

namespace UnifiedMambaOp

variable (cfg : PairConfig)

def step (S : Pair) : UnifiedMambaOp → Option Pair
  | .alloc q needSize => (S.mambaAlloc cfg q needSize).map Prod.fst
  | .allocExtend q reqs => (S.mambaAllocExtend cfg q reqs).map Prod.fst
  | .allocDecode q reqs => (S.mambaAllocDecode cfg q reqs).map Prod.fst
  | .allocSlots q needSize => (S.mambaAllocSlots cfg q needSize).map Prod.fst
  | .free freeIndex => S.mambaFree cfg freeIndex
  | .freeSlots freeIndex => S.mambaFreeSlots cfg freeIndex
  | .freeGroupBegin => some S.freeGroupBegin
  | .freeGroupEnd => S.mambaFreeGroupEnd cfg
  | .flushOpportunistic q => S.flushOpportunistic cfg q
  | .setLatestForwardDoneEvent event => some (S.setLatestForwardDoneEvent event)
  | .setInflightForward event tokens => some (S.mambaSetInflightForward cfg event tokens)

/-- What the caller promises: live tokens and slots, none twice. -/
def Admissible (S : Pair) : UnifiedMambaOp → Prop
  | .free freeIndex => S.MayFree cfg freeIndex
  | .freeSlots freeIndex => S.other.Freeable cfg.otherEnd freeIndex
  | _ => True

def Safe (S : Pair) : UnifiedMambaOp → Prop
  | .flushOpportunistic q => S.SafeFlush cfg q
  | _ => True

instance decidableAdmissible (S : Pair) : DecidablePred (Admissible cfg S)
  | .free freeIndex => inferInstanceAs (Decidable (S.MayFree cfg freeIndex))
  | .freeSlots freeIndex => inferInstanceAs (Decidable (S.other.Freeable cfg.otherEnd freeIndex))
  | .alloc .. | .allocExtend .. | .allocDecode .. | .allocSlots .. | .freeGroupBegin
  | .freeGroupEnd | .flushOpportunistic _ | .setLatestForwardDoneEvent _
  | .setInflightForward .. => isTrue trivial

instance decidableSafe (S : Pair) : DecidablePred (Safe cfg S)
  | .flushOpportunistic q => inferInstanceAs (Decidable (S.SafeFlush cfg q))
  | .alloc .. | .allocExtend .. | .allocDecode .. | .allocSlots .. | .free _ | .freeSlots _
  | .freeGroupBegin | .freeGroupEnd | .setLatestForwardDoneEvent _
  | .setInflightForward .. => isTrue trivial

end UnifiedMambaOp

namespace PairInv

variable {cfg : PairConfig} {S : Pair}

/-- A call on the sliding-window pair returns and keeps the invariant. -/
theorem swaStep (h : PairInv cfg S) (hswa : cfg.otherIsIdOwner = false)
    (hps : cfg.other.pageSize = cfg.full.pageSize) {op : UnifiedSwaOp} (hadm : op.Admissible cfg S)
    (hsafe : op.Safe cfg S) : ∃ T, op.step cfg S = some T ∧ PairInv cfg T := by
  have halloc : ∀ {r : Option (Pair × Outcome)}, (∃ p, r = some p ∧ PairInv cfg p.1) →
      ∃ T, r.map Prod.fst = some T ∧ PairInv cfg T := by
    rintro r ⟨p, rfl, hp⟩
    exact ⟨p.1, rfl, hp⟩
  cases op with
  | alloc q qGate needSize =>
    apply halloc
    apply h.allocBoth hswa q (Nat.div_mul_le_self ..)
    intro T hT
    obtain ⟨_, hF⟩ := hT.full
    obtain ⟨_, hO⟩ := hT.other
    exact alloc_spec hF hO cfg.opposite hT.apart qGate needSize
  | allocExtend q qGate reqs =>
    apply halloc
    apply h.allocBoth hswa q (le_refl _)
    intro T hT
    obtain ⟨_, hF⟩ := hT.full
    obtain ⟨_, hO⟩ := hT.other
    exact allocExtend_spec hF hO cfg.opposite hT.apart qGate reqs
  | allocDecode q qGate reqs =>
    apply halloc
    apply h.allocBoth hswa q (le_refl _)
    intro T hT
    obtain ⟨_, hF⟩ := hT.full
    obtain ⟨_, hO⟩ := hT.other
    exact allocDecode_spec hF hO cfg.opposite hT.apart qGate reqs
  | free idx => exact h.swaFree hps hadm
  | freeSwa idx =>
    obtain ⟨T, heq, hT, _⟩ := h.freeSwa hps hadm
    exact ⟨T, heq, hT⟩
  | freeGroupBegin => exact ⟨_, rfl, h.freeGroupBegin⟩
  | freeGroupEnd => exact h.swaFreeGroupEnd hps
  | flushOpportunistic q => exact h.flushOpportunistic q hsafe.1 hsafe.2
  | setLatestForwardDoneEvent event => exact ⟨_, rfl, h.setLatest event⟩
  | setInflightForward event tokens => exact ⟨_, rfl, h.setInflight event tokens tokens⟩

theorem freeFull (h : PairInv cfg S) (hmamba : cfg.otherIsIdOwner = true) (hnil : S.freeGroup = [])
    {idx : List Nat} (hfree : S.full.Freeable cfg.fullEnd idx) :
    ∃ r, S.full.free cfg.fullEnd idx = some r ∧ PairInv cfg { S with full := r.1 } := by
  obtain ⟨live, hF⟩ := h.full
  obtain ⟨r, live', heq, hinv, hs⟩ := hF.free_shrinks h.full_group hfree
  refine ⟨r, heq, h.shrinkFull ⟨live', hinv⟩ hs ?_ ?_⟩
  · rw [hnil]
    exact freeable_nil
  · exact fun ho => absurd ho (by simp [hmamba])

theorem mambaStep (h : PairInv cfg S) (hmamba : cfg.otherIsIdOwner = true) {op : UnifiedMambaOp}
    (hadm : op.Admissible cfg S) (hsafe : op.Safe cfg S) :
    ∃ T, op.step cfg S = some T ∧ PairInv cfg T := by
  obtain ⟨_, hF⟩ := h.full
  obtain ⟨_, hO⟩ := h.other
  have hopp : cfg.fullEnd.growDirection = cfg.otherEnd.growDirection.opposite := by
    rw [cfg.opposite]
    cases cfg.fullEnd.growDirection <;> rfl
  -- a call works on one end, and the pair invariant says what the other end keeps
  cases op with
  | alloc q needSize =>
    obtain ⟨full, other, out, heq, ha⟩ := alloc_spec hF hO cfg.opposite h.apart q needSize
    exact ⟨_, by simp only [UnifiedMambaOp.step, Pair.mambaAlloc, Pair.onFull, heq]; rfl,
      h.allocatesFull ha⟩
  | allocExtend q reqs =>
    obtain ⟨full, other, out, heq, ha⟩ := allocExtend_spec hF hO cfg.opposite h.apart q reqs
    exact ⟨_, by simp only [UnifiedMambaOp.step, Pair.mambaAllocExtend, Pair.onFull, heq]; rfl,
      h.allocatesFull ha⟩
  | allocDecode q reqs =>
    obtain ⟨full, other, out, heq, ha⟩ := allocDecode_spec hF hO cfg.opposite h.apart q reqs
    exact ⟨_, by simp only [UnifiedMambaOp.step, Pair.mambaAllocDecode, Pair.onFull, heq]; rfl,
      h.allocatesFull ha⟩
  | allocSlots q needSize =>
    obtain ⟨other, full, out, heq, ha⟩ :=
      alloc_spec hO hF hopp (h.apart.symm cfg.opposite) q needSize
    exact ⟨_, by simp only [UnifiedMambaOp.step, Pair.mambaAllocSlots, Pair.onOther, heq]; rfl,
      h.allocatesOther hmamba ha⟩
  | free idx =>
    simp only [UnifiedMambaOp.step, Pair.mambaFree]
    have hadm : S.full.Freeable cfg.fullEnd
        (if S.inFreeGroup then S.freeGroup.flatten ++ idx else idx) := hadm
    split
    · exact ⟨S, rfl, h⟩
    · by_cases hin : S.inFreeGroup = true
      · rw [if_pos hin] at hadm ⊢
        exact ⟨_, rfl, h.freeInGroup hin hadm⟩
      · rw [if_neg hin] at hadm ⊢
        obtain ⟨r, heq, hT⟩ := h.freeFull hmamba (h.group_nil (by simpa using hin)) hadm
        rw [heq]
        exact ⟨_, rfl, hT⟩
  | freeSlots idx =>
    obtain ⟨r, live', heq, hinv, hs⟩ := hO.free_shrinks h.other_group hadm
    exact ⟨_, by simp only [UnifiedMambaOp.step, Pair.mambaFreeSlots, heq]; rfl,
      h.shrinkOther ⟨live', hinv⟩ hs⟩
  | freeGroupBegin => exact ⟨_, rfl, h.freeGroupBegin⟩
  | freeGroupEnd =>
    simp only [UnifiedMambaOp.step, Pair.mambaFreeGroupEnd]
    split
    · have hempty : PairInv cfg { S with inFreeGroup := false, freeGroup := [] } :=
        { h with group_nil := fun _ => rfl, group := freeable_nil }
      obtain ⟨r, heq, hT⟩ := hempty.freeFull hmamba rfl h.group
      have heq : S.full.free cfg.fullEnd S.freeGroup.flatten = some r := heq
      rw [heq]
      exact ⟨_, rfl, hT⟩
    · next hnil => exact ⟨_, rfl, { h with group_nil := fun _ => by simpa using hnil }⟩
  | flushOpportunistic q => exact h.flushOpportunistic q hsafe.1 hsafe.2
  | setLatestForwardDoneEvent event => exact ⟨_, rfl, h.setLatest event⟩
  | setInflightForward event tokens => exact ⟨_, rfl, h.setInflight event tokens []⟩

end PairInv

/-! ## Section 5: The bytes of the pages -/

/-- The bytes of the physical page `p`. -/
def EndConfig.byteRange (cfg : EndConfig) (p : Int) : Set Int :=
  Set.Ico (p * cfg.entryBytesPerPage) ((p + 1) * cfg.entryBytesPerPage)

/-- No byte belongs to live pages of both ends, or to a live page and the padding sink. -/
structure PoolsDisjoint (cfg : PairConfig) (S : Pair) : Prop where
  apart : ∀ p q, S.full.Live p → S.other.Live q →
    Disjoint (cfg.fullEnd.byteRange p) (cfg.otherEnd.byteRange q)
  full_sink : ∀ p, S.full.Live p →
    Disjoint (cfg.fullEnd.byteRange p) (Set.Ico 0 (cfg.entryMax : Int))
  other_sink : ∀ q, S.other.Live q →
    Disjoint (cfg.otherEnd.byteRange q) (Set.Ico 0 (cfg.entryMax : Int))

theorem EndConfig.disjoint_of_room {cfg peerCfg : EndConfig} {s peer : MultiEndedAllocator}
    (hopp : peerCfg.growDirection = cfg.growDirection.opposite)
    (hroom : 0 ≤ cfg.room s (peer.frontier peerCfg)) {p q : Int}
    (hp : cfg.key p < cfg.key s.watermark) (hq : peerCfg.key q < peerCfg.key peer.watermark) :
    Disjoint (cfg.byteRange p) (peerCfg.byteRange q) := by
  have hle : ∀ {a b : Int} {E : Nat}, a ≤ b → a * (E : Int) ≤ b * E :=
    fun hab => mul_le_mul_of_nonneg_right hab (by positivity)
  unfold EndConfig.byteRange
  rw [Set.Ico_disjoint_Ico]
  unfold EndConfig.room MultiEndedAllocator.frontier byteHighFrontier byteLowFrontier at hroom
  unfold EndConfig.key GrowDirection.key at hp hq
  cases hd : cfg.growDirection <;> rw [hd] at hopp <;>
    simp only [hd, hopp, GrowDirection.opposite] at hroom hp hq
  · -- `cfg` grows up: its page ends before its watermark, and the other page starts behind its own
    have h₁ : (p + 1) * (cfg.entryBytesPerPage : Int) ≤ s.watermark * cfg.entryBytesPerPage :=
      hle (by omega)
    have h₂ : (peer.watermark + 1) * (peerCfg.entryBytesPerPage : Int) ≤
        q * peerCfg.entryBytesPerPage := hle (by omega)
    omega
  · have h₁ : (s.watermark + 1) * (cfg.entryBytesPerPage : Int) ≤ p * cfg.entryBytesPerPage :=
      hle (by omega)
    have h₂ : (q + 1) * (peerCfg.entryBytesPerPage : Int) ≤
        peer.watermark * peerCfg.entryBytesPerPage := hle (by omega)
    omega

theorem PairConfig.disjoint_sink (cfg : PairConfig) (pool : SubPool) (d : GrowDirection)
    (owner : Bool) {p : Int} (hp : (cfg.minPageIndex pool : Int) ≤ p) :
    Disjoint ((cfg.endConfig pool d owner).byteRange p) (Set.Ico 0 (cfg.entryMax : Int)) := by
  have hstart : (cfg.entryMax : Int) ≤ p * ((pool.entryBytes * pool.pageSize : Nat) : Int) :=
    calc (cfg.entryMax : Int)
        ≤ (cfg.minPageIndex pool : Int) * ((pool.entryBytes * pool.pageSize : Nat) : Int) := by
          exact_mod_cast cfg.entryMax_le_minPage pool
      _ ≤ p * ((pool.entryBytes * pool.pageSize : Nat) : Int) :=
          mul_le_mul_of_nonneg_right hp (by positivity)
  unfold EndConfig.byteRange
  rw [Set.Ico_disjoint_Ico]
  apply le_trans (min_le_right _ _)
  exact hstart.trans (le_max_left _ _)

theorem PairInv.poolsDisjoint {cfg : PairConfig} {S : Pair} (h : PairInv cfg S) :
    PoolsDisjoint cfg S := by
  obtain ⟨live, hF⟩ := h.full
  obtain ⟨live', hO⟩ := h.other
  have hkey : ∀ {c : EndConfig} {s : MultiEndedAllocator} {l : List Int}, EndInv c s l →
      ∀ {p}, s.Live p → c.lo ≤ c.key p ∧ c.key p < c.key s.watermark := by
    intro c s l hinv p hp
    apply hinv.band.mem_key.mp
    exact List.mem_append_left _ (List.mem_append_left _ ((hinv.live_iff p).mpr hp))
  refine ⟨fun p q hp hq => ?_, fun p hp => ?_, fun q hq => ?_⟩
  · obtain ⟨hlo, hlt⟩ := hkey hF hp
    rcases h.apart with hroom | ⟨hwm, _⟩
    · exact EndConfig.disjoint_of_room cfg.opposite hroom hlt (hkey hO hq).2
    · -- the first band is empty
      omega
  · exact cfg.disjoint_sink cfg.full _ _ (hF.live_pos ((hF.live_iff p).mpr hp))
  · exact cfg.disjoint_sink cfg.other _ _ (hO.live_pos ((hO.live_iff q).mpr hq))

/-! ## Section 6: Every run -/

/-- Twelve bytes, one a page at both ends. -/
def smallPair : PairConfig where
  totalBytes := 12
  full := ⟨1, Nat.one_pos, 1, Nat.one_pos⟩
  other := ⟨1, Nat.one_pos, 1, Nat.one_pos⟩
  fullDirection := .up
  otherIsIdOwner := true
  lazyCompaction := true

/-- The same with one virtual index for both ends. -/
def smallSwaPair : PairConfig := { smallPair with otherIsIdOwner := false }

def noneFiredPair : PairQueries := ⟨noneFired, noneFired⟩

/-- Both ends grow and shrink under one flush. -/
def oneSwaFlush : List UnifiedSwaOp :=
  [.setLatestForwardDoneEvent (some 0), .alloc noneFiredPair noneFired 4, .freeSwa [1], .free [2],
    .flushOpportunistic noneFiredPair]

/-- The same with slots of the other end. -/
def oneMambaFlush : List UnifiedMambaOp :=
  [.setLatestForwardDoneEvent (some 0), .alloc noneFired 4, .free [1], .allocSlots noneFired 3,
    .flushOpportunistic noneFiredPair]

/-- Two flushes under one event lose pages 7 and 8 of the full end; a later urgent flush moves the
watermark back over page 8, which is live again. -/
def crossedRun : List UnifiedMambaOp :=
  [.setLatestForwardDoneEvent (some 0), .alloc noneFired 8, .free [1, 2],
    .flushOpportunistic noneFiredPair, .free [3, 4], .flushOpportunistic noneFiredPair,
    .allocSlots noneFired 6, .alloc noneFired 2, .free [9], .allocSlots noneFired 4]

end Sglang.MemCache
