import Mathlib
import Sglang.MemCache.UnifiedPair

/-!
# The Two Ends Stay Apart

- `Apart`: the frontiers of the two ends have not crossed,
- `Shrinks`: what flushes and frees do to one end; they keep the ends apart,
- `Apart.paid`: an allocation that its shortfall gate lets through keeps them apart,
- `joint_room`: the three phases of `UnifiedSWATokenToKVPoolAllocator.available_size` count no byte
  twice.
-/

namespace Sglang.MemCache

open List
open Lib
open MultiEndedAllocator

/-! ## Section 1: Frontiers -/

namespace EndConfig

variable (cfg : EndConfig)

/-- The bytes between the watermark and the byte `f` on its other side. -/
def room (s : MultiEndedAllocator) (f : Int) : Int :=
  match cfg.growDirection with
  | .up => f - s.frontier cfg
  | .down => s.frontier cfg - f

variable {cfg} {s t : MultiEndedAllocator}

theorem room_of_key {k f : Int} (h : cfg.key t.watermark = cfg.key s.watermark + k) :
    cfg.room t f = cfg.room s f - k * cfg.entryBytesPerPage := by
  unfold room MultiEndedAllocator.frontier byteHighFrontier byteLowFrontier EndConfig.key
    GrowDirection.key at *
  cases hd : cfg.growDirection <;> simp only [hd] at h ⊢
  · rw [h]
    ring
  · rw [show t.watermark = s.watermark - k by omega]
    ring

theorem currentGapBytes_eq (f : Int) : s.currentGapBytes cfg (some f) = max 0 (cfg.room s f) := by
  unfold currentGapBytes room MultiEndedAllocator.frontier
  cases hd : cfg.growDirection <;> simp

theorem room_comm {peerCfg : EndConfig} {peer : MultiEndedAllocator}
    (hopp : peerCfg.growDirection = cfg.growDirection.opposite) :
    peerCfg.room peer (s.frontier cfg) = cfg.room s (peer.frontier peerCfg) := by
  unfold room
  rw [hopp]
  cases cfg.growDirection <;> rfl

end EndConfig

/-- The frontiers have not crossed, unless neither end has ever taken a page. -/
def Apart (cfg peerCfg : EndConfig) (s peer : MultiEndedAllocator) : Prop :=
  0 ≤ cfg.room s (peer.frontier peerCfg) ∨
    (cfg.key s.watermark = cfg.lo ∧ peerCfg.key peer.watermark = peerCfg.lo)

namespace Apart

variable {cfg peerCfg : EndConfig} {s t peer : MultiEndedAllocator}

theorem symm (hopp : peerCfg.growDirection = cfg.growDirection.opposite)
    (h : Apart cfg peerCfg s peer) : Apart peerCfg cfg peer s := by
  unfold Apart
  rw [EndConfig.room_comm hopp]
  exact h.imp_right And.symm

theorem shrink (h : Apart cfg peerCfg s peer) (hle : cfg.key t.watermark ≤ cfg.key s.watermark)
    (hlo : cfg.lo ≤ cfg.key t.watermark) : Apart cfg peerCfg t peer := by
  rcases h with hroom | ⟨hs, hpeer⟩
  · refine .inl ?_
    rw [EndConfig.room_of_key (s := s) (k := cfg.key t.watermark - cfg.key s.watermark) (by ring)]
    have : (cfg.key t.watermark - cfg.key s.watermark) * cfg.entryBytesPerPage ≤ 0 := by
      apply mul_nonpos_of_nonpos_of_nonneg <;> omega
    omega
  · exact .inr ⟨by omega, hpeer⟩

theorem grow (h : Apart cfg peerCfg s peer) {k : Nat}
    (hkey : cfg.key t.watermark = cfg.key s.watermark + k)
    (hroom : k ≠ 0 → (k * cfg.entryBytesPerPage : Int) ≤ cfg.room s (peer.frontier peerCfg)) :
    Apart cfg peerCfg t peer := by
  by_cases hk : k = 0
  · subst hk
    rcases h with hr | ⟨hs, hpeer⟩
    · refine .inl ?_
      rw [EndConfig.room_of_key hkey]
      simpa using hr
    · refine .inr ⟨?_, hpeer⟩
      rw [hkey, hs]
      simp
  · refine .inl ?_
    rw [EndConfig.room_of_key hkey]
    have := hroom hk
    omega

end Apart

/-! ## Section 2: An end that shrinks -/

/-- The end gives pages back. The tokens `freed` are unbound; the other virtual pages stay. -/
structure Shrinks (cfg : EndConfig) (s t : MultiEndedAllocator) (freed : List Nat) : Prop where
  watermark_le : cfg.key t.watermark ≤ cfg.key s.watermark
  in_group : t.inFreeGroup = s.inFreeGroup
  isSome_iff : ∀ v, (t.virtualToPhysical v).isSome ↔
    (s.virtualToPhysical v).isSome ∧ ∀ x ∈ freed, x / cfg.pageSize ≠ v

namespace Shrinks

variable {cfg : EndConfig} {s t : MultiEndedAllocator}

theorem refl (s : MultiEndedAllocator) : Shrinks cfg s s [] :=
  ⟨le_refl _, rfl, fun v => by simp⟩

theorem freeable (h : Shrinks cfg s t []) {idx : List Nat} (hfree : s.Freeable cfg idx) :
    t.Freeable cfg idx :=
  ⟨fun x hx => ⟨(hfree.bound x hx).1, (h.isSome_iff _).mpr ⟨(hfree.bound x hx).2, by simp⟩⟩,
    hfree.nodup⟩

end Shrinks

section Ends

variable {cfg : EndConfig} {s t : MultiEndedAllocator} {live : List Int}

theorem Flushed.shrinks {q : Queries} {urgent : Bool} {moves : List Move}
    (h : Flushed cfg q urgent s t moves) : Shrinks cfg s t [] :=
  ⟨h.watermark_le, h.in_group, fun v => by simpa using h.relocates.isSome_iff v⟩

theorem EndInv.flushUrgent_shrinks (h : EndInv cfg s live) (q : Queries) :
    ∃ r live', s.flush cfg q true = some r ∧ EndInv cfg r.1 live' ∧ Shrinks cfg s r.1 [] := by
  obtain ⟨t, moves, live', heq, hinv, hf⟩ := h.flush q true (by simp)
  exact ⟨_, live', heq, hinv, hf.shrinks⟩

theorem EndInv.flushOpportunistic_shrinks (h : EndInv cfg s live) (q : Queries)
    (hok : s.overwrites cfg q = false) :
    ∃ r live', s.flushOpportunistic cfg q = some r ∧ EndInv cfg r.1 live' ∧
      Shrinks cfg s r.1 [] := by
  unfold MultiEndedAllocator.flushOpportunistic
  split
  · exact ⟨_, live, rfl, h, Shrinks.refl s⟩
  split
  · exact ⟨_, live, rfl, h, Shrinks.refl s⟩
  obtain ⟨t, moves, live', heq, hinv, hf⟩ := h.flush q false fun _ => hok
  exact ⟨_, live', heq, hinv, hf.shrinks⟩

theorem isSome_unbound {idx : List Nat} (v : Nat) :
    (scatter s.virtualToPhysical ((freedVirtualPages cfg idx).map fun v => (v, none)) v).isSome ↔
      (s.virtualToPhysical v).isSome ∧ ∀ x ∈ idx, x / cfg.pageSize ≠ v := by
  rw [scatter_const]
  split
  · next hmem =>
    obtain ⟨x, hx, hxv⟩ := mem_freedVirtualPages.mp hmem
    simp only [Option.isSome_none, Bool.false_eq_true, false_iff, not_and, not_forall, not_not]
    exact fun _ => ⟨x, hx, hxv⟩
  · next hmem =>
    rw [mem_freedVirtualPages] at hmem
    push Not at hmem
    simp only [iff_self_and]
    exact fun _ => hmem

theorem EndInv.free_shrinks (h : EndInv cfg s live) (hin : s.inFreeGroup = false) {idx : List Nat}
    (hfree : s.Freeable cfg idx) :
    ∃ r live', s.free cfg idx = some r ∧ EndInv cfg r.1 live' ∧ Shrinks cfg s r.1 idx := by
  have hgroup := h.group hin
  unfold MultiEndedAllocator.free
  by_cases hnil : idx = []
  · rw [if_pos hnil, hnil]
    exact ⟨_, live, rfl, h, Shrinks.refl s⟩
  rw [if_neg hnil, if_neg (by simp [hin])]
  cases hlazy : cfg.lazyCompaction with
  | true =>
    obtain ⟨t, ps, heq, _, _, hv2p, hinv⟩ := h.freeLazy hlazy hfree hgroup
    obtain ⟨_, _, _, hwm, hin'⟩ := freeLazy_frame heq
    rw [if_pos rfl, heq]
    refine ⟨_, _, rfl, hinv, (congrArg cfg.key hwm).le, hin', fun v => ?_⟩
    change (t.virtualToPhysical v).isSome ↔ _
    rw [hv2p]
    exact isSome_unbound v
  | false =>
    obtain ⟨t, moves, live', heq, _, hrel, hinv⟩ := h.freeEager hlazy hfree hgroup
    obtain ⟨_, _, _, hwm, hin'⟩ := freeEager_frame heq
    rw [if_neg (by simp), heq]
    refine ⟨_, live', rfl, hinv, hwm, hin', fun v => ?_⟩
    change (t.virtualToPhysical v).isSome ↔ _
    rw [hrel.isSome_iff]
    exact isSome_unbound v

end Ends

/-! ## Section 3: An end that grows -/

section Buy

variable {cfg peerCfg : EndConfig} {s t peer : MultiEndedAllocator} {live : List Int}

/-- What a purchase adds to an end. -/
structure Grows (cfg : EndConfig) (s t : MultiEndedAllocator) (vs : List Nat) : Prop where
  in_group : t.inFreeGroup = s.inFreeGroup
  isSome_iff : ∀ v, (t.virtualToPhysical v).isSome ↔ (s.virtualToPhysical v).isSome ∨ v ∈ vs
  /-- The band grows by what the holes do not give. -/
  key : ∃ k : Nat, cfg.key t.watermark = cfg.key s.watermark + k ∧
    (k ≠ 0 → vs.length = s.freePhysPages.length + k)

theorem Grows.refl (s : MultiEndedAllocator) : Grows cfg s s [] :=
  ⟨rfl, fun v => by simp, 0, by simp, by simp⟩

theorem Grows.freeable {vs : List Nat} (h : Grows cfg s t vs) {idx : List Nat}
    (hfree : s.Freeable cfg idx) : t.Freeable cfg idx :=
  ⟨fun x hx => ⟨(hfree.bound x hx).1, (h.isSome_iff _).mpr (.inl (hfree.bound x hx).2)⟩,
    hfree.nodup⟩

theorem Purchase.grows {vs : List Nat} {drained new : List Int}
    (h : Purchase cfg s t vs drained new) : Grows cfg s t vs := by
  obtain ⟨hunbound, hlen, t₀, htaken, ht⟩ := h
  have hv2p : t.virtualToPhysical =
      scatter s.virtualToPhysical (vs.zip ((drained ++ new).map some)) := by
    rw [ht, MultiEndedAllocator.bind, htaken.frame]
  have hwm : t.watermark = t₀.watermark := by rw [ht, MultiEndedAllocator.bind]
  refine ⟨by rw [ht, MultiEndedAllocator.bind, htaken.frame], fun v => ?_, new.length, ?_, ?_⟩
  · rw [hv2p]
    have hkeys : (vs.zip ((drained ++ new).map some)).map Prod.fst = vs :=
      map_fst_zip (by simpa using hlen.ge)
    rcases scatter_cases (vs.zip ((drained ++ new).map some)) (t := s.virtualToPhysical) v with
      ⟨hnot, heq⟩ | hmem
    · -- no key, so none of `vs`
      have hv : v ∉ vs := by
        rw [← hkeys]
        intro hmem
        obtain ⟨w, hw, rfl⟩ := mem_map.mp hmem
        exact hnot w.2 hw
      rw [heq]
      simp [hv]
    · have hv := (of_mem_zip hmem).1
      obtain ⟨p, _, hp⟩ := mem_map.mp (of_mem_zip hmem).2
      rw [← hp]
      simp [hv]
  · rw [hwm]
    exact htaken.key
  · intro hk
    have hne : new ≠ [] := fun hnil => hk (by simp [hnil])
    rw [← hlen, length_append, htaken.holes_first hne]

theorem Paid.grows {front flushed : Option Int} {n : Nat} {out : Option (List Nat)}
    (h : Paid cfg s t front flushed n out) :
    Grows cfg s t [] ∨ Grows cfg s t (s.freeVirtualIds.take n) := by
  rcases h with ⟨rfl, _⟩ | ⟨_, _, _, hbuy, _⟩
  · exact .inl (Grows.refl t)
  · exact .inr hbuy.grows

theorem room_of_available {f : Int} {n k : Nat}
    (havail : (n * cfg.pageSize : Int) ≤ s.availableSize cfg (some f)) (hk : k ≠ 0)
    (hn : n = s.freePhysPages.length + k) : (k * cfg.entryBytesPerPage : Int) ≤ cfg.room s f := by
  have hps : (0 : Int) < cfg.pageSize := by exact_mod_cast cfg.pageSize_pos
  have he : (0 : Int) < cfg.entryBytesPerPage := by exact_mod_cast cfg.entryBytes_pos
  unfold availableSize at havail
  have hle := le_of_mul_le_mul_right havail hps
  rw [EndConfig.currentGapBytes_eq] at hle
  have hdrain : (if cfg.lazyCompaction then (s.freePhysPages.length : Int) else 0) ≤
      s.freePhysPages.length := by
    split <;> omega
  have hpages : (k : Int) ≤ max 0 (cfg.room s f) / cfg.entryBytesPerPage := by
    have := min_le_left (max 0 (cfg.room s f) / cfg.entryBytesPerPage)
      (cfg.numPages - cfg.minPageIndex - s.allocatedPages cfg)
    omega
  have hbytes : (k * cfg.entryBytesPerPage : Int) ≤ max 0 (cfg.room s f) :=
    (mul_le_mul_of_nonneg_right hpages he.le).trans (Int.ediv_mul_le _ he.ne')
  have hpos : (0 : Int) < k * cfg.entryBytesPerPage := by
    apply mul_pos _ he
    omega
  omega

theorem Apart.paid {f : Int} {front flushed : Option Int} {n : Nat} {out : Option (List Nat)}
    (h : Apart cfg peerCfg s peer) (hpaid : Paid cfg s t front flushed n out)
    (hf : f = peer.frontier peerCfg)
    (hview : ∀ view, s.gate cfg front flushed (n * cfg.pageSize) = some view → view = some f) :
    Apart cfg peerCfg t peer := by
  rcases hpaid with ⟨rfl, _⟩ | ⟨view, _, _, hbuy, hn, hgate⟩
  · exact h
  · obtain ⟨k, hkey, hk⟩ := hbuy.grows.key
    apply h.grow hkey
    intro hne
    have havail := EndInv.gate_room hgate
    rw [hview view hgate] at havail
    rw [← hf]
    apply room_of_available (n := n) (by exact_mod_cast havail) hne
    rw [← hk hne, length_take]
    omega

end Buy

/-- An allocation with its peer. The virtual pages it binds are the first free ones. -/
structure Allocates (cfg peerCfg : EndConfig) (own peer own' peer' : MultiEndedAllocator) (n : Nat)
    (out : Outcome) : Prop where
  own_inv : ∃ live, EndInv cfg own' live
  peer_inv : ∃ live, EndInv peerCfg peer' live
  grows : Grows cfg own own' [] ∨ Grows cfg own own' (own.freeVirtualIds.take n)
  bought : ∀ ids, out = some (some ids) → Grows cfg own own' (own.freeVirtualIds.take n)
  peer_shrinks : Shrinks peerCfg peer peer' []
  apart : Apart cfg peerCfg own' peer'
  /-- Without a shortfall the peer is left alone. -/
  peer_eq : (n * cfg.pageSize : Int) ≤ own.availableSize cfg (some (peer.frontier peerCfg)) →
    peer' = peer

theorem allocWithPeer_spec {cfg peerCfg : EndConfig} {own peer : MultiEndedAllocator}
    {live peerLive : List Int} (hown : EndInv cfg own live) (hpeer : EndInv peerCfg peer peerLive)
    (hopp : peerCfg.growDirection = cfg.growDirection.opposite) (hap : Apart cfg peerCfg own peer)
    (q : Queries) {atGate : Bool} {need n : Nat}
    {call : Option Int → Option Int → Option (MultiEndedAllocator × Option (List Nat))}
    (hcall : ∀ front flushed t out, call front flushed = some (t, out) →
      ∃ live', EndInv cfg t live' ∧ Paid cfg own t front flushed n out)
    (hgate : atGate = true → need = n * cfg.pageSize) :
    ∃ own' peer' out, cfg.allocWithPeer peerCfg own peer q atGate need call =
      some (own', peer', out) ∧ Allocates cfg peerCfg own peer own' peer' n out := by
  -- the peer, flushed or not
  obtain ⟨peer', hpeer', hinv', hshrinks, hsame⟩ : ∃ peer',
      (if (atGate && cfg.lazyCompaction &&
          own.availableSize cfg (some (peer.frontier peerCfg)) < need) = true then
        (peer.flush peerCfg q true).map Prod.fst else some peer) = some peer' ∧
      (∃ live, EndInv peerCfg peer' live) ∧ Shrinks peerCfg peer peer' [] ∧
      ((n * cfg.pageSize : Int) ≤ own.availableSize cfg (some (peer.frontier peerCfg)) →
        peer' = peer) := by
    split
    · next hshort =>
      obtain ⟨r, live', heq, hinv, hs⟩ := hpeer.flushUrgent_shrinks q
      refine ⟨r.1, by rw [heq]; rfl, ⟨live', hinv⟩, hs, fun hle => ?_⟩
      simp only [Bool.and_eq_true, decide_eq_true_eq] at hshort
      have hneed := hgate hshort.1.1
      have hlt := hshort.2
      rw [hneed] at hlt
      push_cast at hlt
      omega
    · exact ⟨peer, rfl, ⟨_, hpeer⟩, Shrinks.refl peer, fun _ => rfl⟩
  obtain ⟨peerLive', hinvP⟩ := hinv'
  have hap' : Apart cfg peerCfg own peer' := by
    apply Apart.symm (by rw [hopp]; cases cfg.growDirection <;> rfl)
    exact (hap.symm hopp).shrink hshrinks.watermark_le hinvP.watermark.1
  have heq : cfg.allocWithPeer peerCfg own peer q atGate need call =
      (call (some (peer.frontier peerCfg)) (some (peer'.frontier peerCfg))).elim
      (some (own, peer', none))
        fun r => some (r.1, peer', some r.2) := by
    unfold EndConfig.allocWithPeer
    dsimp only
    split at hpeer'
    · next hshort =>
      rw [if_pos hshort, hpeer', Option.bind_eq_bind, Option.bind_some]
      cases call (some (peer.frontier peerCfg)) (some (peer'.frontier peerCfg)) <;> rfl
    · next hshort =>
      rw [if_neg hshort, hpeer', Option.bind_eq_bind, Option.bind_some]
      cases call (some (peer.frontier peerCfg)) (some (peer'.frontier peerCfg)) <;> rfl
  rw [heq]
  cases hc : call (some (peer.frontier peerCfg)) (some (peer'.frontier peerCfg)) with
  | none =>
    exact ⟨own, peer', none, rfl, ⟨live, hown⟩, ⟨_, hinvP⟩, .inl (Grows.refl own), by simp,
      hshrinks, hap', hsame⟩
  | some r =>
    obtain ⟨own', out⟩ := r
    obtain ⟨live', hinv, hpaid⟩ := hcall _ _ _ _ hc
    refine ⟨own', peer', some out, rfl, ⟨live', hinv⟩, ⟨_, hinvP⟩, hpaid.grows, ?_, hshrinks, ?_,
      hsame⟩
    · intro ids hids
      rcases hpaid with ⟨rfl, hnone | hz⟩ | ⟨_, _, _, hbuy, _⟩
      · rw [hnone] at hids
        cases hids
      · rw [hz, take_zero]
        exact Grows.refl own'
      · exact hbuy.grows
    · apply hap'.paid hpaid rfl
      intro view hview
      unfold gate at hview
      split at hview
      · split at hview
        · exact (Option.some.inj hview).symm
        · cases hview
      · next hle =>
        -- there was no shortfall, so the peer is the same
        rw [hsame (by push_cast at hle; omega)]
        exact (Option.some.inj hview).symm

/-! ## Section 4: The joint budget -/

/-- Both ends take `n` pages, holes first: `a` holes on the one and `b` on the other end. What the
three phases count is enough for the bytes that both extend by. -/
theorem phases_room {n a b e e' g : Int} (hab : a ≤ b) (he : 0 < e) (he' : 0 < e') (hg : 0 ≤ g)
    (hn : n ≤ a + min (b - a) (g / e) + (g - min (b - a) (g / e) * e) / (e + e')) :
    max 0 (n - a) * e + max 0 (n - b) * e' ≤ g := by
  have hq : g / e * e ≤ g := Int.ediv_mul_le g he.ne'
  have hmono : ∀ {x y : Int}, x ≤ y → x * e ≤ y * e := fun h => mul_le_mul_of_nonneg_right h he.le
  rcases le_or_gt (b - a) (g / e) with hroom | hroom
  · -- the end with fewer holes reaches the other
    rw [min_eq_left hroom] at hn
    have hk3 := Int.ediv_mul_le (g - (b - a) * e) (show e + e' ≠ 0 by omega)
    have hused : (b - a) * e ≤ g := (hmono hroom).trans hq
    rcases le_or_gt n b with hnb | hnb
    · rw [max_eq_left (by omega : n - b ≤ 0), zero_mul, add_zero]
      have : max 0 (n - a) ≤ b - a := by omega
      exact (hmono this).trans hused
    · rw [max_eq_right (by omega : 0 ≤ n - a), max_eq_right (by omega : 0 ≤ n - b)]
      have hboth : (n - b) * (e + e') ≤
          (g - (b - a) * e) / (e + e') * (e + e') := by
        apply mul_le_mul_of_nonneg_right _ (by omega)
        omega
      calc (n - a) * e + (n - b) * e' = (b - a) * e + (n - b) * (e + e') := by ring
        _ ≤ (b - a) * e + (g - (b - a) * e) / (e + e') * (e + e') := by omega
        _ ≤ g := by omega
  · -- the gap is used up before
    rw [min_eq_right hroom.le] at hn
    have hrest : (g - g / e * e) / (e + e') = 0 := by
      have hmod : g - g / e * e = g % e := by
        rw [Int.emod_def]
        ring
      rw [hmod]
      apply Int.ediv_eq_zero_of_lt (Int.emod_nonneg g he.ne')
      have := Int.emod_lt_of_pos g he
      omega
    rw [hrest, add_zero] at hn
    rw [max_eq_left (by omega : n - b ≤ 0), zero_mul, add_zero]
    have hq0 : 0 ≤ g / e := Int.ediv_nonneg hg he.le
    have : max 0 (n - a) ≤ g / e := by omega
    exact (hmono this).trans hq

section Joint

variable {cfg : PairConfig} {S : Pair} {liveF liveO : List Int}

def Pair.gap (cfg : PairConfig) (S : Pair) : Int :=
  cfg.fullEnd.room S.full (S.other.frontier cfg.otherEnd)

theorem PairConfig.opposite (cfg : PairConfig) :
    cfg.otherEnd.growDirection = cfg.fullEnd.growDirection.opposite := rfl

theorem gapBytes_eq : S.gapBytes cfg = max 0 (S.gap cfg) := by
  unfold Pair.gapBytes Pair.gap EndConfig.room MultiEndedAllocator.frontier
  have hdF : cfg.fullEnd.growDirection = cfg.fullDirection := rfl
  have hdO : cfg.otherEnd.growDirection = cfg.fullDirection.opposite := rfl
  rw [hdF, hdO]
  cases cfg.fullDirection <;> rfl

theorem joint_room (hF : EndInv cfg.fullEnd S.full liveF) (hO : EndInv cfg.otherEnd S.other liveO)
    {n : Nat} (hn : (n * cfg.full.pageSize : Int) ≤ S.availableSize cfg) :
    max 0 ((n : Int) - S.full.freePhysPages.length) * cfg.fullEnd.entryBytesPerPage +
        max 0 ((n : Int) - S.other.freePhysPages.length) * cfg.otherEnd.entryBytesPerPage ≤
      max 0 (S.gap cfg) ∧
    (n : Int) ≤ S.full.freePhysPages.length + (cfg.fullEnd.numPages - cfg.fullEnd.minPageIndex -
      S.full.allocatedPages cfg.fullEnd) := by
  have hps : (0 : Int) < cfg.full.pageSize := by exact_mod_cast cfg.full.pageSize_pos
  have heF : (0 : Int) < cfg.fullEnd.entryBytesPerPage := by
    exact_mod_cast cfg.fullEnd.entryBytes_pos
  have heO : (0 : Int) < cfg.otherEnd.entryBytesPerPage := by
    exact_mod_cast cfg.otherEnd.entryBytes_pos
  unfold Pair.availableSize at hn
  simp only [gapBytes_eq] at hn
  have hg : 0 ≤ max 0 (S.gap cfg) := le_max_left _ _
  generalize max 0 (S.gap cfg) = g at hn hg ⊢
  generalize (cfg.fullEnd.numPages - cfg.fullEnd.minPageIndex -
    S.full.allocatedPages cfg.fullEnd : Int) = rF at hn ⊢
  generalize (cfg.otherEnd.numPages - cfg.otherEnd.minPageIndex -
    S.other.allocatedPages cfg.otherEnd : Int) = rO at hn
  cases hlazy : cfg.lazyCompaction with
  | false =>
    -- without holes both ends extend by every page
    rw [if_pos (by simp [hlazy])] at hn
    have hle := le_of_mul_le_mul_right hn hps
    have hnilF : S.full.freePhysPages = [] := (hF.eager hlazy).1
    have hnilO : S.other.freePhysPages = [] := (hO.eager hlazy).1
    rw [hnilF, hnilO]
    have hboth := Int.ediv_mul_le g
      (show (cfg.fullEnd.entryBytesPerPage + cfg.otherEnd.entryBytesPerPage : Int) ≠ 0 by omega)
    have hmul : (n : Int) * (cfg.fullEnd.entryBytesPerPage + cfg.otherEnd.entryBytesPerPage) ≤
        g / (cfg.fullEnd.entryBytesPerPage + cfg.otherEnd.entryBytesPerPage) *
          (cfg.fullEnd.entryBytesPerPage + cfg.otherEnd.entryBytesPerPage) := by
      apply mul_le_mul_of_nonneg_right _ (by omega)
      omega
    simp only [length_nil, Nat.cast_zero, sub_zero, zero_add]
    rw [max_eq_right (by omega : (0 : Int) ≤ n)]
    constructor
    · calc (n * cfg.fullEnd.entryBytesPerPage + n * cfg.otherEnd.entryBytesPerPage : Int) =
            n * (cfg.fullEnd.entryBytesPerPage + cfg.otherEnd.entryBytesPerPage) := by ring
        _ ≤ g := hmul.trans hboth
    · omega
  | true =>
    rw [if_neg (by simp [hlazy])] at hn
    have hle := le_of_mul_le_mul_right hn hps
    have hroomF := hle.trans ((min_le_right _ _).trans (min_le_left _ _))
    have hphase := hle.trans (min_le_left _ _)
    refine ⟨?_, hroomF⟩
    by_cases hcmp : (S.full.freePhysPages.length : Int) ≤ S.other.freePhysPages.length
    · simp only [if_pos hcmp, min_eq_left hcmp, if_pos heF] at hphase
      exact phases_room hcmp heF heO hg hphase
    · have hcmp' : (S.other.freePhysPages.length : Int) ≤ S.full.freePhysPages.length := by omega
      simp only [if_neg hcmp, min_eq_right hcmp', if_pos heO] at hphase
      rw [add_comm (cfg.fullEnd.entryBytesPerPage : Int)] at hphase
      rw [add_comm]
      exact phases_room hcmp' heO heF hg hphase

end Joint

end Sglang.MemCache
