import Sglang.Lib.CommonPrefix
import Sglang.Lib.Runs

/-!
# The Frontier of the Sliding Window

Model of `free_swa_out_of_window_slots` (`mem_cache/common.py`): a request gives back the slots of
the sliding-window pool that its window has left behind.

- `freeSwaOutOfWindowSlots`: one call, with the positions whose slots it frees,
- `step`: calls one at a time; the protected length may have grown in between,
- `Inv`: the frontier is page-aligned, what was freed lies below it, and in radix mode it is held
  back by a page unless the protected part reaches further,
- `frontier_along`: what every call of a run does.

The slot of a position is `req_to_token[req_pool_idx, position]`.
-/

namespace Sglang.MemCache.WindowFrontier

open List
open Lib

/-! ## Section 1: One call -/

/-- The arguments that stay the same. -/
structure WindowConfig where
  pageSize : Nat
  slidingWindowSize : Nat
  isChunkCache : Bool
deriving DecidableEq, Repr

/-- The fields of a `Req`. `swa_evict_floor` may be absent. -/
structure WindowReq where
  cacheProtectedLen : Nat
  swaEvictFloor : Option Nat
  swaEvictedSeqlen : Nat
deriving DecidableEq, Repr

namespace WindowConfig

variable (cfg : WindowConfig)

/-- `evict_floor`: the protected length, or the floor of the request rounded up to whole pages. -/
def evictFloor (req : WindowReq) : Nat :=
  let evictFloor := max req.cacheProtectedLen (req.swaEvictFloor.getD 0)
  if cfg.pageSize > 1 ∧ evictFloor > req.cacheProtectedLen then
    -- `-(-evict_floor // page_size) * page_size`
    (evictFloor + cfg.pageSize - 1) / cfg.pageSize * cfg.pageSize
  else evictFloor

def evictThreshold (preLen : Int) : Int :=
  if cfg.isChunkCache then preLen - cfg.slidingWindowSize
  else preLen - max cfg.slidingWindowSize cfg.pageSize

def newSwaEvictedSeqlen (evicted : Nat) (preLen : Int) : Nat :=
  let newEvicted := (max (evicted : Int) (cfg.evictThreshold preLen)).toNat
  if cfg.pageSize > 1 then newEvicted / cfg.pageSize * cfg.pageSize else newEvicted

/-- `free_swa_out_of_window_slots`: the request and the positions whose slots are freed; `none` is
the `AssertionError`. -/
def freeSwaOutOfWindowSlots (req : WindowReq) (preLen : Int) : Option (WindowReq × List Nat) :=
  if req.cacheProtectedLen % cfg.pageSize = 0 then
    let evicted := max req.swaEvictedSeqlen (cfg.evictFloor req)
    let newEvicted := cfg.newSwaEvictedSeqlen evicted preLen
    if newEvicted > evicted then
      some ({ req with swaEvictedSeqlen := newEvicted }, List.range' evicted (newEvicted - evicted))
    else some ({ req with swaEvictedSeqlen := evicted }, [])
  else none

end WindowConfig

/-! ## Section 2: Calls one at a time -/

/-- A call: the length before it, and the protected length as it is then. -/
structure Call where
  preLen : Int
  cacheProtectedLen : Nat
deriving DecidableEq, Repr

/-- The request, the positions freed so far in the order in which they were, and the last
`pre_len`. -/
structure State where
  req : WindowReq
  freed : List Nat
  preLen : Option Int
deriving DecidableEq, Repr

def State.init (swaEvictFloor : Option Nat) : State := ⟨⟨0, swaEvictFloor, 0⟩, [], none⟩

def step (cfg : WindowConfig) (s : State) (c : Call) : Option State :=
  (cfg.freeSwaOutOfWindowSlots { s.req with cacheProtectedLen := c.cacheProtectedLen } c.preLen).map
    fun r =>
    ⟨r.1, s.freed ++ r.2, some c.preLen⟩

/-- The caller's side: neither length shrinks, and the protected length is page-aligned. -/
structure Grows (cfg : WindowConfig) (s : State) (c : Call) : Prop where
  pre : ∀ p ∈ s.preLen, p ≤ c.preLen
  cached : s.req.cacheProtectedLen ≤ c.cacheProtectedLen
  aligned : cfg.pageSize ∣ c.cacheProtectedLen

/-! ## Section 3: What one call does -/

namespace WindowConfig

variable {cfg : WindowConfig}

theorem le_of_lt_add_page {ps a b : Nat} (ha : ps ∣ a) (hb : ps ∣ b) (h : a < b + ps) : a ≤ b := by
  by_contra hlt
  have hle := Nat.le_of_dvd (by omega) (Nat.dvd_sub ha hb)
  omega

section

variable {req : WindowReq} (hps : 0 < cfg.pageSize) (h : cfg.pageSize ∣ req.cacheProtectedLen)
include hps h

theorem evictFloor_eq :
    cfg.evictFloor req = max req.cacheProtectedLen
      (pageFloor cfg.pageSize (req.swaEvictFloor.getD 0 + cfg.pageSize - 1)) := by
  unfold evictFloor
  dsimp only
  have hle := pageFloor_le cfg.pageSize (req.swaEvictFloor.getD 0 + cfg.pageSize - 1)
  have hlt := lt_pageFloor_add hps (req.swaEvictFloor.getD 0 + cfg.pageSize - 1)
  rcases Nat.lt_or_ge req.cacheProtectedLen (req.swaEvictFloor.getD 0) with hfloor | hfloor
  · rw [max_eq_right hfloor.le]
    split
    · rw [max_eq_right (by omega)]
      rfl
    · -- pages of one slot need no rounding
      rw [max_eq_right (by omega)]
      omega
  · rw [max_eq_left hfloor, if_neg (by omega), max_eq_left]
    exact le_of_lt_add_page (dvd_pageFloor _ _) h (by omega)

theorem dvd_evictFloor : cfg.pageSize ∣ cfg.evictFloor req := by
  rw [evictFloor_eq hps h]
  rcases max_choice req.cacheProtectedLen
    (pageFloor cfg.pageSize (req.swaEvictFloor.getD 0 + cfg.pageSize - 1)) with heq | heq
  · rwa [heq]
  · rw [heq]
    exact dvd_pageFloor _ _

theorem le_evictFloor : req.cacheProtectedLen ≤ cfg.evictFloor req := by
  rw [evictFloor_eq hps h]
  exact le_max_left _ _

end

theorem newSwaEvictedSeqlen_spec (hps : 0 < cfg.pageSize) {evicted : Nat}
    (h : cfg.pageSize ∣ evicted) (preLen : Int) :
    cfg.pageSize ∣ cfg.newSwaEvictedSeqlen evicted preLen ∧
    evicted ≤ cfg.newSwaEvictedSeqlen evicted preLen ∧
    cfg.evictThreshold preLen < cfg.newSwaEvictedSeqlen evicted preLen + cfg.pageSize ∧
    (evicted < cfg.newSwaEvictedSeqlen evicted preLen →
      (cfg.newSwaEvictedSeqlen evicted preLen : Int) ≤ cfg.evictThreshold preLen) := by
  have heq : cfg.newSwaEvictedSeqlen evicted preLen =
      pageFloor cfg.pageSize (max (evicted : Int) (cfg.evictThreshold preLen)).toNat := by
    unfold newSwaEvictedSeqlen
    dsimp only
    split
    · rfl
    · rw [show cfg.pageSize = 1 by omega, pageFloor_one]
  rw [heq]
  have hle := pageFloor_le cfg.pageSize (max (evicted : Int) (cfg.evictThreshold preLen)).toNat
  have hlt := lt_pageFloor_add hps (max (evicted : Int) (cfg.evictThreshold preLen)).toNat
  refine ⟨dvd_pageFloor _ _, (le_pageFloor_iff h).mpr (by omega), by omega, by omega⟩

theorem freeSwa_eq {req : WindowReq} (h : cfg.pageSize ∣ req.cacheProtectedLen) (preLen : Int) :
    ∃ freed, cfg.freeSwaOutOfWindowSlots req preLen = some
      ({ req with
        swaEvictedSeqlen := max (max req.swaEvictedSeqlen (cfg.evictFloor req))
          (cfg.newSwaEvictedSeqlen (max req.swaEvictedSeqlen (cfg.evictFloor req)) preLen) },
          freed) ∧
      freed = List.range' (max req.swaEvictedSeqlen (cfg.evictFloor req))
        (cfg.newSwaEvictedSeqlen (max req.swaEvictedSeqlen (cfg.evictFloor req)) preLen -
          max req.swaEvictedSeqlen (cfg.evictFloor req)) := by
  refine ⟨_, ?_, rfl⟩
  unfold freeSwaOutOfWindowSlots
  rw [if_pos (Nat.mod_eq_zero_of_dvd h)]
  dsimp only
  split
  · next hlt => rw [max_eq_right hlt.le]
  · next hnot =>
    have hle := Nat.not_lt.mp hnot
    rw [max_eq_left hle, Nat.sub_eq_zero_of_le hle, range'_zero]

end WindowConfig

/-! ## Section 4: What holds along a run -/

/-- The frontier is page-aligned, and what was freed lies below it, every position once. In radix
mode the frontier is a page short of the last length, unless the protected part reaches as far. -/
structure Inv (cfg : WindowConfig) (s : State) : Prop where
  aligned : cfg.pageSize ∣ s.req.swaEvictedSeqlen
  cached : cfg.pageSize ∣ s.req.cacheProtectedLen
  once : s.freed.Pairwise (· < ·)
  below : ∀ n ∈ s.freed, n < s.req.swaEvictedSeqlen
  margin : cfg.isChunkCache = false → s.req.swaEvictedSeqlen ≤ cfg.evictFloor s.req ∨
    ∃ p ∈ s.preLen, (s.req.swaEvictedSeqlen + cfg.pageSize : Int) ≤ p

/-- What a call does: `s` is the state before it, `t` the state after it. -/
structure FrontierMoves (cfg : WindowConfig) (s : State) (c : Call) (t : State) : Prop where
  once : t.freed.Nodup
  freed : ∃ new, t.freed = s.freed ++ new ∧
    ∀ n ∈ new, c.cacheProtectedLen ≤ n ∧ (n : Int) < c.preLen - cfg.slidingWindowSize
  aligned : cfg.pageSize ∣ t.req.swaEvictedSeqlen
  mono : s.req.swaEvictedSeqlen ≤ t.req.swaEvictedSeqlen
  floor : cfg.evictFloor t.req ≤ t.req.swaEvictedSeqlen
  lag : cfg.evictThreshold c.preLen < t.req.swaEvictedSeqlen + cfg.pageSize
  leaf : cfg.isChunkCache = false → (cfg.pageSize : Int) ≤ c.preLen →
    cfg.evictFloor t.req < pageFloor cfg.pageSize c.preLen.toNat →
    t.req.swaEvictedSeqlen < pageFloor cfg.pageSize c.preLen.toNat

variable {cfg : WindowConfig}

theorem Inv.init (cfg : WindowConfig) (swaEvictFloor : Option Nat) : Inv cfg
    (.init swaEvictFloor) where
  aligned := dvd_zero _
  cached := dvd_zero _
  once := .nil
  below _ h := absurd h not_mem_nil
  margin _ := .inl (Nat.zero_le _)

/-- One call keeps the invariant, and moves the frontier as it should. -/
theorem Inv.step (hps : 0 < cfg.pageSize) {s : State} {c : Call} (h : Inv cfg s)
    (hc : Grows cfg s c) :
    ∃ t, step cfg s c = some t ∧ Inv cfg t ∧ FrontierMoves cfg s c t := by
  set req : WindowReq := { s.req with cacheProtectedLen := c.cacheProtectedLen } with hreq
  have hcached : cfg.pageSize ∣ req.cacheProtectedLen := hc.aligned
  set floor := cfg.evictFloor req with hfloor
  have hfloor_dvd : cfg.pageSize ∣ floor := WindowConfig.dvd_evictFloor hps hcached
  have hfloor_le : c.cacheProtectedLen ≤ floor := WindowConfig.le_evictFloor hps hcached
  -- the floor, the frontier and the cached prefix only grow
  have hfloor_mono : cfg.evictFloor s.req ≤ floor := by
    rw [hfloor, WindowConfig.evictFloor_eq hps hcached, WindowConfig.evictFloor_eq hps h.cached]
    exact max_le_max_right _ hc.cached
  obtain ⟨new, hcall, hnew⟩ := WindowConfig.freeSwa_eq hcached c.preLen
  set start := max req.swaEvictedSeqlen floor with hstart
  have hstart_dvd : cfg.pageSize ∣ start := by
    rcases max_choice req.swaEvictedSeqlen floor with heq | heq
    · rw [hstart, heq]
      exact h.aligned
    · rw [hstart, heq]
      exact hfloor_dvd
  obtain ⟨hdvd, hge, hlag, hthreshold⟩ :=
    WindowConfig.newSwaEvictedSeqlen_spec hps hstart_dvd c.preLen
  set stop := cfg.newSwaEvictedSeqlen start c.preLen with hstop
  rw [max_eq_right hge] at hcall
  have hold : s.req.swaEvictedSeqlen ≤ start := le_max_left _ _
  have hthreshold_le : cfg.evictThreshold c.preLen ≤ c.preLen - cfg.slidingWindowSize := by
    unfold WindowConfig.evictThreshold
    split <;> omega
  have hmem : ∀ n ∈ new, start ≤ n ∧ n < stop := by
    intro n hn
    rw [hnew, mem_range'_1] at hn
    omega
  have honce : (s.freed ++ new).Pairwise (· < ·) := by
    apply pairwise_append.mpr
    refine ⟨h.once, ?_, ?_⟩
    · rw [hnew]
      exact pairwise_lt_range'
    · intro a ha b hb
      have ha := h.below a ha
      have hb := (hmem b hb).1
      omega
  have hmargin : cfg.isChunkCache = false → stop ≤ floor ∨
      (stop + cfg.pageSize : Int) ≤ c.preLen := by
    intro hradix
    have hthreshold_eq : cfg.evictThreshold c.preLen =
        c.preLen - max cfg.slidingWindowSize cfg.pageSize := by
      unfold WindowConfig.evictThreshold
      rw [hradix]
      rfl
    rcases Nat.lt_or_ge start stop with hlt | hle
    · have := hthreshold hlt
      omega
    · -- nothing was freed: the frontier is the old one, or the floor
      rcases h.margin hradix with hmargin | ⟨p, hp, hmargin⟩
      · left
        have : req.swaEvictedSeqlen ≤ floor := hmargin.trans hfloor_mono
        omega
      · have := hc.pre p hp
        have : req.swaEvictedSeqlen = s.req.swaEvictedSeqlen := rfl
        omega
  refine ⟨⟨{ req with swaEvictedSeqlen := stop }, s.freed ++ new, some c.preLen⟩, ?_, ?_, ?_⟩
  · rw [WindowFrontier.step, hcall]
    rfl
  · refine ⟨hdvd, hcached, honce, ?_, ?_⟩
    · intro n hn
      rcases mem_append.mp hn with hn | hn
      · exact (h.below n hn).trans_le (hold.trans hge)
      · exact (hmem n hn).2
    · intro hradix
      exact (hmargin hradix).imp id fun hle => ⟨c.preLen, rfl, hle⟩
  · refine ⟨honce.imp Nat.ne_of_lt, ⟨new, rfl, ?_⟩, hdvd, hold.trans hge, ?_, ?_, ?_⟩
    · intro n hn
      obtain ⟨hfrom, hto⟩ := hmem n hn
      have := hthreshold (hfrom.trans_lt hto)
      have : floor ≤ start := le_max_right _ _
      exact ⟨by omega, by omega⟩
    · exact (le_max_right _ _).trans hge
    · exact hlag
    · intro hradix hpage hleaf
      change floor < _ at hleaf
      change stop < _
      rcases hmargin hradix with hle | hle
      · exact hle.trans_lt hleaf
      · -- the frontier and the page after it lie below the length
        have hpages := (le_pageFloor_iff (Nat.dvd_add hdvd dvd_rfl)).mpr
          (show stop + cfg.pageSize ≤ c.preLen.toNat by omega)
        omega

/-- Every call of a run moves the frontier as it should. -/
theorem frontier_along (hps : 0 < cfg.pageSize) (swaEvictFloor : Option Nat) (calls : List Call)
    (hcalls : Along (step cfg) (Grows cfg) (.init swaEvictFloor) calls) :
    Along (step cfg) (fun s c => ∃ t, step cfg s c = some t ∧ FrontierMoves cfg s c t)
      (.init swaEvictFloor) calls := by
  have hinv := hcalls.invariant (Inv cfg)
    (fun s c t hs hc heq => by
      obtain ⟨u, hu, hinv, -⟩ := hs.step hps hc
      rw [heq] at hu
      cases hu
      exact hinv)
    (Inv.init cfg swaEvictFloor)
  apply hinv.imp
  intro s c _ hsc
  obtain ⟨t, heq, -, hmoves⟩ := hsc.1.step hps hsc.2
  exact ⟨t, heq, hmoves⟩

/-- Three calls with pages of four slots, a window of six and a floor inside a page. -/
def threeCalls : List Call := [⟨7, 4⟩, ⟨20, 4⟩, ⟨21, 12⟩]

theorem frontier_along_three :
    Along (step ⟨4, 6, false⟩)
      (fun s c => ∃ t, step ⟨4, 6, false⟩ s c = some t ∧ FrontierMoves ⟨4, 6, false⟩ s c t)
      (.init (some 5)) threeCalls := by
  apply frontier_along (by decide)
  refine ⟨⟨?_, by decide, by decide⟩, ⟨?_, by decide, by decide⟩, ⟨?_, by decide, by decide⟩,
    trivial⟩ <;>
    simp [State.init]

/-- With a window smaller than a page, radix mode keeps a page and not the window: of seven tokens
the last one is attended to, and nothing is freed. Where all whole pages are protected, the frontier
stands at their end. -/
theorem frontier_lags :
    (∃ t, step ⟨4, 1, false⟩ (.init none) ⟨7, 0⟩ = some t ∧
      ¬ ((7 : Int) - 1 < t.req.swaEvictedSeqlen + 4)) ∧
    ∃ t, step ⟨4, 1, false⟩ (.init none) ⟨7, 4⟩ = some t ∧
      ¬ t.req.swaEvictedSeqlen < pageFloor 4 7 := by
  exact ⟨⟨_, rfl, by decide⟩, ⟨_, rfl, by decide⟩⟩

end Sglang.MemCache.WindowFrontier
