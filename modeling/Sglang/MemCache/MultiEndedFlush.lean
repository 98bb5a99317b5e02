import Sglang.MemCache.MultiEndedWalk

/-!
# Flushing a Two-Ended Pool

`_flush` (`mem_cache/multi_ended_allocator.py`) keeps the invariant of the pool (`EndInv.flush`).

A non-urgent flush does so unless it moves pages under an event that has not fired and already has
an entry in `_pending_reuse` (`MultiEndedAllocator.overwrites`): the entry is replaced, and the
pages it listed are lost.
-/

namespace Sglang.MemCache

open List
open Sglang.Lib

variable {cfg : EndConfig} {s t : MultiEndedAllocator} {live : List Int}

/-! ## Section 1: Replaced entries -/

namespace MultiEndedAllocator

variable (cfg : EndConfig)

/-- A non-urgent flush moves at least one page: the outermost live page lies further out than the
innermost hole, and the forward does not write it. -/
def movesPage (s : MultiEndedAllocator) (q : Queries) : Bool :=
  let t := s.flushPrepare cfg q false
  match (cfg.growDirection.innerFirst t.freePhysPages).head?,
    (t.topmostSurvivor cfg none (cfg.growDirection.outerFirst t.freePhysPages)).1 with
  | some dst, some src =>
    src ∉ (t.materializeInflightWriteSet cfg q.write).1 && !cfg.growDirection.outer dst src
  | _, _ => false

/-- A non-urgent flush replaces an entry of `_pending_reuse`: it moves pages under an event that has
not fired and that the dictionary has already. -/
def overwrites (s : MultiEndedAllocator) (q : Queries) : Bool :=
  match s.latestForwardDoneEvent with
  | none => false
  | some e =>
    e ∈ s.pendingReuse.map Prod.fst && !q.drain e && !q.commit e && s.movesPage cfg q

variable {cfg} {s t : MultiEndedAllocator} {live : List Int}

def committedState (s : MultiEndedAllocator) (moves : List Move) : MultiEndedAllocator :=
  { s with
    virtualToPhysical := scatter s.virtualToPhysical (moves.map fun m => (m.virt, some m.dst))
    physicalToVirtual :=
      scatter (scatter s.physicalToVirtual (moves.map fun m => (m.dst, some m.virt)))
        ((moves.map Move.src).map fun p => (p, none)) }

theorem commitMoveBatch_fired {query : Event → Bool} {latest : Option Event} (moves : List Move)
    (hfired : ∀ e, latest = some e → query e = true) :
    s.commitMoveBatch query moves latest = (s.committedState moves, moves.map Move.src) := by
  unfold commitMoveBatch
  split
  · next hnil =>
    subst hnil
    rfl
  · cases latest with
    | none => rfl
    | some e =>
      dsimp only
      rw [if_pos (hfired e rfl)]
      rfl

theorem commitMoveBatch_pending {query : Event → Bool} {e : Event} {moves : List Move}
    (hne : moves ≠ []) (hwait : query e = false) :
    s.commitMoveBatch query moves (some e) =
      ({ s.committedState moves with
          pendingReuse := dictSet s.pendingReuse e (moves.map Move.src)
          pendingReusePagesCpu := s.pendingReusePagesCpu ∪ (moves.map Move.src).toFinset },
          []) := by
  unfold commitMoveBatch
  rw [if_neg hne]
  simp only [hwait]
  rfl

theorem walking_start (hinv : BandInv cfg s live) (query : Event → Bool) (ws : Option (List Int))
    (hsort : (cfg.growDirection.innerFirst s.freePhysPages).Pairwise fun a b =>
      cfg.key a < cfg.key b) :
    Walking cfg s query live (cfg.growDirection.innerFirst s.freePhysPages) ws
      { cursor := none
        rest := cfg.growDirection.outerFirst s.freePhysPages
        writeSet := ws
        inflight := s.inflightForward
        moves := [] } (cfg.key s.watermark - 1) := by
  refine
    { dsts := rfl
      bound := by simp
      src_live := by simp
      cross := by simp
      srcs_sorted := List.Pairwise.nil
      unraced := by simp
      writes := .inl ⟨rfl, rfl⟩
      cursor := rfl
      lim_lt := by omega
      rests := ?_
      beyond := by simp
      done := ?_ }
  · rw [cfg.growDirection.outerFirst_eq]
    refine ⟨fun h hh => ?_, fun h hh _ => ?_, pairwise_reverse.mpr hsort⟩
    · simpa using hh
    · simpa using hh
  · intro q hq hlt
    have hmem : q ∈ live ++ s.freePhysPages ++ s.pendingPages := by simp [hq]
    have := (hinv.band.mem_key.mp hmem).2
    omega

theorem Walked.holes_perm {query : Event → Bool} {ws : Option (List Int)} {w : Walk}
    (h : Walked cfg s query live (cfg.growDirection.innerFirst s.freePhysPages) ws w) :
    (w.moves.map Move.dst ++ cfg.growDirection.cutInner w.moves.length s.freePhysPages).Perm
      s.freePhysPages := by
  calc (w.moves.map Move.dst ++ cfg.growDirection.cutInner w.moves.length s.freePhysPages).Perm
        ((cfg.growDirection.innerFirst s.freePhysPages).take w.moves.length ++
          (cfg.growDirection.innerFirst s.freePhysPages).drop w.moves.length) := by
        rw [h.dsts, ← cfg.growDirection.innerFirst_cutInner]
        exact (cfg.growDirection.innerFirst_perm _).symm.append_left _
    _ |>.Perm s.freePhysPages := by
        rw [take_append_drop]
        exact cfg.growDirection.innerFirst_perm _

theorem movesPage_of_moves {q : Queries} {w : Walk}
    (heq : (s.flushPrepare cfg q false).flushLoop cfg q.write false
      (cfg.growDirection.innerFirst (s.flushPrepare cfg q false).freePhysPages)
      { cursor := none
        rest := cfg.growDirection.outerFirst (s.flushPrepare cfg q false).freePhysPages
        writeSet := none
        inflight := (s.flushPrepare cfg q false).inflightForward
        moves := [] } = some w)
    (hne : w.moves ≠ []) : s.movesPage cfg q = true := by
  unfold movesPage
  dsimp only
  generalize s.flushPrepare cfg q false = t at *
  cases hinner : cfg.growDirection.innerFirst t.freePhysPages with
  | nil =>
    rw [hinner] at heq
    cases heq
    exact absurd rfl hne
  | cons dst dsts =>
    rw [hinner] at heq
    simp only [head?_cons]
    rcases hsurv : t.topmostSurvivor cfg none (cfg.growDirection.outerFirst t.freePhysPages) with
      ⟨_ | src, rest⟩
    · unfold flushLoop at heq
      rw [hsurv] at heq
      cases heq
      exact absurd rfl hne
    · rw [flushLoop_cons hsurv rfl] at heq
      split at heq
      · cases heq
        exact absurd rfl hne
      · next hrace =>
        split at heq
        · cases heq
          exact absurd rfl hne
        · next hcross => simp [hrace, hcross]

end MultiEndedAllocator

/-- What a flush does, the lists of pages apart. -/
structure Flushed (cfg : EndConfig) (q : Queries) (urgent : Bool) (s t : MultiEndedAllocator)
    (moves : List Move) : Prop where
  relocates : Relocates s.virtualToPhysical t.virtualToPhysical moves
  watermark_le : cfg.key t.watermark ≤ cfg.key s.watermark
  ids : t.freeVirtualIds = s.freeVirtualIds
  in_group : t.inFreeGroup = s.inFreeGroup
  group : t.freeGroup = s.freeGroup
  latest : t.latestForwardDoneEvent = s.latestForwardDoneEvent
  inflight : t.inflightForward = s.inflightForward ∨ t.inflightForward = none
  /-- Only fired entries leave `_pending_reuse`, or those that an urgent flush waits for. -/
  kept : ∀ x ∈ s.pendingReuse, x ∈ t.pendingReuse ∨ q.drain x.1 = true ∨ urgent = true
  /-- A moved page waits for its readers, unless they are done. -/
  waits : ∀ m ∈ moves, urgent = true ∨ s.latestForwardDoneEvent = none ∨
    ∃ e, s.latestForwardDoneEvent = some e ∧
      (q.commit e = true ∨ ∃ l, (e, l) ∈ t.pendingReuse ∧ m.src ∈ l)
  /-- An urgent flush that moves pages packs the band. -/
  packs : urgent = true → moves ≠ [] → (s.flushPrepare cfg q true).freePhysPages ≠ []
  /-- A page that the forward writes is not moved. -/
  unraced : urgent = false → ∀ m ∈ moves, m.src ∉ (s.materializeInflightWriteSet cfg q.write).1

namespace EndInv

open MultiEndedAllocator

theorem setEvents (h : EndInv cfg s live) (latest : Option Event)
    (inflight : Option (Event × List Nat)) :
    EndInv cfg { s with latestForwardDoneEvent := latest, inflightForward := inflight } live :=
  { watermark := h.watermark
    band := h.band
    inverse := h.inverse
    live_iff := h.live_iff
    anchor := h.anchor
    pending_cpu := h.pending_cpu
    events_nodup := h.events_nodup
    count := h.count
    eager := h.eager
    sorted := h.sorted
    virtualIds := fun ho => ⟨(h.virtualIds ho).nodup, (h.virtualIds ho).unbound,
      (h.virtualIds ho).length⟩
    group := h.group
    grouped := ⟨h.grouped.bound, h.grouped.nodup⟩ }

section

variable {moves : List Move} (h : EndInv cfg s live) (hlazy : cfg.lazyCompaction = true)
include h hlazy

/-- A full pack: the watermark retreats over as many pages as there were holes. -/
theorem fullPack
    (hpend : s.pendingReuse = [])
    (hc : Committed s.virtualToPhysical live moves (s.committedState moves).virtualToPhysical
      (s.committedState moves).physicalToVirtual)
    (hdsts : moves.map Move.dst =
      (cfg.growDirection.innerFirst s.freePhysPages).take moves.length)
    (hpacked : PackedBy cfg live (cfg.growDirection.innerFirst s.freePhysPages) moves) :
    EndInv cfg
      { s.committedState moves with
        watermark := cfg.growDirection.retreat s.watermark s.freePhysPages.length
        freePhysPages := [] }
      (live.filter (· ∉ moves.map Move.src) ++ moves.map Move.dst) := by
  generalize hinner : cfg.growDirection.innerFirst s.freePhysPages = inner at hdsts hpacked
  have hperm : inner.Perm s.freePhysPages := hinner ▸ cfg.growDirection.innerFirst_perm _
  generalize hout : moves.map Move.src ++ inner.drop moves.length = out
  have hnil : s.pendingPages = [] := by simp [pendingPages, hpend]
  -- the pages that are live afterwards, and the others
  have hband : Band cfg s.watermark
      (live.filter (· ∉ moves.map Move.src) ++ moves.map Move.dst ++ out) := by
    apply h.band.perm
    rw [hnil, append_nil, ← hout, hdsts]
    calc (live.filter (· ∉ moves.map Move.src) ++ inner.take moves.length ++
            (moves.map Move.src ++ inner.drop moves.length)).Perm
          (live.filter (· ∉ moves.map Move.src) ++ moves.map Move.src ++
            (inner.take moves.length ++ inner.drop moves.length)) := by
          simp only [List.append_assoc]
          refine List.Perm.append_left _ ?_
          rw [← List.append_assoc, ← List.append_assoc]
          exact perm_append_comm.append_right _
      _ |>.Perm (live ++ s.freePhysPages) := by
          rw [take_append_drop]
          exact hc.split.symm.append hperm
  have hlen : moves.length ≤ inner.length := by
    have := congrArg List.length hdsts
    rw [length_map, length_take] at this
    omega
  have hout_len : out.length = s.freePhysPages.length := by
    rw [← hout, length_append, length_map, length_drop, ← hperm.length_eq]
    omega
  have hkey : cfg.key (cfg.growDirection.retreat s.watermark s.freePhysPages.length) =
      cfg.key s.watermark - s.freePhysPages.length := cfg.growDirection.key_retreat _ _
  -- every live page has a smaller key than every other page
  have hsep : ∀ k ∈ (live.filter (· ∉ moves.map Move.src) ++ moves.map Move.dst).map cfg.key,
      ∀ k' ∈ out.map cfg.key, k < k' := by
    intro k hk k' hk'
    obtain ⟨a, ha, rfl⟩ := mem_map.mp hk
    obtain ⟨b, hb, rfl⟩ := mem_map.mp hk'
    rw [← hout] at hb
    apply hpacked a _ b (mem_append.mp hb)
    rcases mem_append.mp ha with ha | ha
    · left
      simpa using mem_filter.mp ha
    · right
      rw [← hdsts]
      exact ha
  have hmem := mem_iff_of_separated cfg.lo (cfg.key s.watermark)
    (by rw [← map_append]; exact hband.keys_nodup)
    (fun k => by rw [← map_append]; exact hband.mem_keys k) hsep
  have hnew : Band cfg (cfg.growDirection.retreat s.watermark s.freePhysPages.length)
      (live.filter (· ∉ moves.map Move.src) ++ moves.map Move.dst) := by
    refine ⟨(nodup_append.mp hband.nodup).1, fun p => ?_⟩
    rw [← mem_map_of_injective cfg.key_injective, hmem, length_map, hout_len,
      cfg.inBand_iff, hkey]
  have htotal := hband.length h.watermark.1
  rw [length_append, hout_len] at htotal
  have hwm := h.watermark.2
  refine h.committed hc ⟨rfl, rfl, rfl, rfl⟩ hlazy ⟨?_, ?_⟩ ?_ ?_ ?_ ?_
  · change cfg.lo ≤ cfg.key (cfg.growDirection.retreat s.watermark s.freePhysPages.length)
    omega
  · change cfg.key (cfg.growDirection.retreat s.watermark s.freePhysPages.length) ≤ _
    omega
  · simpa [committedState, pendingPages, hpend] using hnew
  · exact h.pending_cpu
  · exact h.events_nodup
  · exact fun _ => List.Pairwise.nil

theorem released
    (hsorted : s.freePhysPages.Pairwise (· ≤ ·))
    (hc : Committed s.virtualToPhysical live moves (s.committedState moves).virtualToPhysical
      (s.committedState moves).physicalToVirtual)
    (hholes : (moves.map Move.dst ++ cfg.growDirection.cutInner moves.length s.freePhysPages).Perm
      s.freePhysPages) :
    EndInv cfg
      { s.committedState moves with
        freePhysPages :=
          if moves.map Move.src = [] then cfg.growDirection.cutInner moves.length s.freePhysPages
          else mergeFree cfg
            (cfg.growDirection.cutInner moves.length s.freePhysPages ++ moves.map Move.src) }
      (live.filter (· ∉ moves.map Move.src) ++ moves.map Move.dst) := by
  generalize hcut : cfg.growDirection.cutInner moves.length s.freePhysPages = cut at *
  have hfree : (if moves.map Move.src = [] then cut else
      mergeFree cfg (cut ++ moves.map Move.src)).Perm (cut ++ moves.map Move.src) := by
    split
    · next hnil =>
      rw [hnil, append_nil]
    · exact mergeFree_perm _
  refine h.committed hc ⟨rfl, rfl, rfl, rfl⟩ hlazy h.watermark ?_ h.pending_cpu h.events_nodup ?_
  · apply h.band.perm
    refine List.Perm.append_right _ ?_
    calc (live.filter (· ∉ moves.map Move.src) ++ moves.map Move.dst ++ _).Perm
          (live.filter (· ∉ moves.map Move.src) ++ moves.map Move.dst ++
            (cut ++ moves.map Move.src)) := hfree.append_left _
      _ |>.Perm (live.filter (· ∉ moves.map Move.src) ++ moves.map Move.src ++
            (moves.map Move.dst ++ cut)) := by
          simp only [List.append_assoc]
          refine List.Perm.append_left _ ?_
          rw [← List.append_assoc]
          exact perm_append_comm
      _ |>.Perm (live ++ s.freePhysPages) := hc.split.symm.append hholes
  · intro hsort
    dsimp only
    split
    · rw [← hcut]
      exact hsorted.sublist (cfg.growDirection.cutInner_sublist _ _)
    · exact mergeFree_sorted hsort _

theorem waiting
    {e : Event} (hnew : e ∉ s.pendingReuse.map Prod.fst)
    (hsorted : s.freePhysPages.Pairwise (· ≤ ·))
    (hc : Committed s.virtualToPhysical live moves (s.committedState moves).virtualToPhysical
      (s.committedState moves).physicalToVirtual)
    (hholes : (moves.map Move.dst ++ cfg.growDirection.cutInner moves.length s.freePhysPages).Perm
      s.freePhysPages) :
    EndInv cfg
      { s.committedState moves with
        pendingReuse := dictSet s.pendingReuse e (moves.map Move.src)
        pendingReusePagesCpu := s.pendingReusePagesCpu ∪ (moves.map Move.src).toFinset
        freePhysPages := cfg.growDirection.cutInner moves.length s.freePhysPages }
      (live.filter (· ∉ moves.map Move.src) ++ moves.map Move.dst) := by
  have hdict : dictSet s.pendingReuse e (moves.map Move.src) =
      s.pendingReuse ++ [(e, moves.map Move.src)] := if_neg hnew
  have hpages : (dictSet s.pendingReuse e (moves.map Move.src)).flatMap Prod.snd =
      s.pendingPages ++ moves.map Move.src := by
    rw [hdict, flatMap_append]
    simp [pendingPages]
  refine h.committed hc ⟨rfl, rfl, rfl, rfl⟩ hlazy h.watermark ?_ ?_ ?_ ?_
  · apply h.band.perm
    simp only [pendingPages] at hpages ⊢
    rw [hpages]
    calc (live.filter (· ∉ moves.map Move.src) ++ moves.map Move.dst ++
            cfg.growDirection.cutInner moves.length s.freePhysPages ++
            (s.pendingReuse.flatMap Prod.snd ++ moves.map Move.src)).Perm
          (live.filter (· ∉ moves.map Move.src) ++ moves.map Move.src ++
            (moves.map Move.dst ++ cfg.growDirection.cutInner moves.length s.freePhysPages) ++
            s.pendingReuse.flatMap Prod.snd) := by
          simp only [List.append_assoc]
          refine List.Perm.append_left _ ?_
          rw [← List.append_assoc, ← List.append_assoc, ← List.append_assoc]
          refine perm_append_comm.trans ?_
          simp only [List.append_assoc]
          exact .refl _
      _ |>.Perm (live ++ s.freePhysPages ++ s.pendingReuse.flatMap Prod.snd) :=
          (hc.split.symm.append hholes).append_right _
  · simp only [pendingPages] at hpages ⊢
    rw [hpages, toFinset_append, h.pending_cpu]
    rfl
  · dsimp only
    rw [hdict, map_append]
    refine nodup_append.mpr ⟨h.events_nodup, by simp, ?_⟩
    rintro e' he' _ he rfl
    simp only [map_cons, map_nil, mem_singleton] at he
    exact hnew (he ▸ he')
  · intro _
    exact hsorted.sublist (cfg.growDirection.cutInner_sublist _ _)

end

end EndInv

namespace EndInv

open MultiEndedAllocator

theorem walk (h : EndInv cfg s live) (hsorted : s.freePhysPages.Pairwise (· ≤ ·))
    (query : Event → Bool) (urgent : Bool) (ws : Option (List Int)) :
    ∃ w, s.flushLoop cfg query urgent (cfg.growDirection.innerFirst s.freePhysPages)
        { cursor := none
          rest := cfg.growDirection.outerFirst s.freePhysPages
          writeSet := ws
          inflight := s.inflightForward
          moves := [] } = some w ∧
      Walked cfg s query live (cfg.growDirection.innerFirst s.freePhysPages) ws w ∧
      Committed s.virtualToPhysical live w.moves (s.committedState w.moves).virtualToPhysical
        (s.committedState w.moves).physicalToVirtual ∧
      (urgent = true → ws = some [] →
        PackedBy cfg live (cfg.growDirection.innerFirst s.freePhysPages) w.moves) := by
  have hsort := cfg.growDirection.innerFirst_sorted hsorted h.holes_nodup
  have hholes : ∀ p ∈ cfg.growDirection.innerFirst s.freePhysPages, p ∈ s.freePhysPages :=
    fun p hp => cfg.growDirection.mem_innerFirst.mp hp
  obtain ⟨w, heq, hw, hpacked⟩ := flushLoop_spec h.toBandInv urgent hsort hholes _
    (walking_start h.toBandInv query ws hsort) rfl
  exact ⟨w, heq, hw, hw.committed h.toBandInv hsort hholes, hpacked⟩

theorem mem_flushPrepare_pending {q : Queries} {urgent : Bool} {x : Event × List Int}
    (hx : x ∈ s.pendingReuse) :
    x ∈ (s.flushPrepare cfg q urgent).pendingReuse ∨ q.drain x.1 = true ∨ urgent = true := by
  have hdrain : (s.flushPrepare cfg q urgent).pendingReuse =
      (s.drainPendingReuse cfg q.drain urgent).pendingReuse := by
    unfold MultiEndedAllocator.flushPrepare MultiEndedAllocator.absorbBoundaryHoles
    dsimp only
    split <;> rfl
  rw [hdrain]
  unfold MultiEndedAllocator.drainPendingReuse
  dsimp only
  split
  · exact .inl hx
  · cases hready : q.drain x.1 || urgent with
    | false => exact .inl (mem_filter.mpr ⟨hx, by simp [hready]⟩)
    | true => exact .inr (by simpa using hready)

theorem mem_flushPrepare_events {q : Queries} {e : Event}
    (he : e ∈ (s.flushPrepare cfg q false).pendingReuse.map Prod.fst) :
    e ∈ s.pendingReuse.map Prod.fst ∧ q.drain e = false := by
  have hdrain : (s.flushPrepare cfg q false).pendingReuse =
      (s.drainPendingReuse cfg q.drain false).pendingReuse := by
    unfold MultiEndedAllocator.flushPrepare MultiEndedAllocator.absorbBoundaryHoles
    dsimp only
    split <;> rfl
  rw [hdrain] at he
  unfold MultiEndedAllocator.drainPendingReuse at he
  simp only [Bool.or_false] at he
  obtain ⟨x, hx, rfl⟩ := mem_map.mp he
  split at hx
  · next hnil =>
    have hnot : x ∉ s.pendingReuse.filter fun e => q.drain e.1 := by
      rw [hnil]
      exact not_mem_nil
    refine ⟨mem_map_of_mem hx, ?_⟩
    by_contra hd
    exact hnot (mem_filter.mpr ⟨hx, by simpa using hd⟩)
  · obtain ⟨hx, hd⟩ := mem_filter.mp hx
    exact ⟨mem_map_of_mem hx, by simpa using hd⟩

theorem flushFull (h : EndInv cfg s live) (hlazy : cfg.lazyCompaction = true) (q : Queries)
    (hne : (s.flushPrepare cfg q true).freePhysPages ≠ []) :
    ∃ t moves live', s.flush cfg q true = some (t, moves) ∧ EndInv cfg t live' ∧
      Flushed cfg q true s t moves := by
  obtain ⟨⟨hp, hsorted, hle, hframe⟩, hempty⟩ := h.flushPrepare q true
  have hne' := hne
  unfold MultiEndedAllocator.flush
  rw [if_neg (by simp [hlazy])]
  generalize s.flushPrepare cfg q true = p at hp hsorted hle hframe hempty hne ⊢
  -- the forward is waited for, so nothing it writes is in the way
  obtain ⟨x, hx, hinflight⟩ : ∃ x, p.settleInflightForward = { p with inflightForward := x } ∧
      (x = s.inflightForward ∨ x = none) := by
    unfold settleInflightForward
    split
    · exact ⟨p.inflightForward, rfl, .inl (by rw [hframe])⟩
    · exact ⟨none, rfl, .inr rfl⟩
  obtain ⟨w, heq, hw, hc, hpacked⟩ :=
    (hp.setEvents p.latestForwardDoneEvent x).walk hsorted q.write true (some [])
  have hrun : ({ p with inflightForward := x } : MultiEndedAllocator).flushLoop cfg q.write true
      (cfg.growDirection.innerFirst p.freePhysPages)
      { cursor := none
        rest := cfg.growDirection.outerFirst p.freePhysPages
        writeSet := some []
        inflight := x
        moves := [] } = some w := heq
  have hfull := (hp.setEvents p.latestForwardDoneEvent w.inflight).fullPack hlazy (hempty rfl) hc
    hw.dsts (hpacked rfl rfl)
  have hfired : ∀ e, (none : Option Event) = some e → q.commit e = true := fun e he => by cases he
  refine ⟨_, w.moves, _, ?_, hfull, ?_⟩
  · simp only [hne, hx, ne_eq, not_false_eq_true, and_self, decide_true, if_true, hrun,
      Option.bind_eq_bind, Option.bind_some, commitMoveBatch_fired w.moves hfired]
    rfl
  · have hkey : cfg.key (cfg.growDirection.retreat p.watermark p.freePhysPages.length) =
        cfg.key p.watermark - p.freePhysPages.length := cfg.growDirection.key_retreat _ _
    refine ⟨?_, ?_, ?_, ?_, ?_, ?_, ?_, fun _ _ => .inr (.inr rfl), fun _ _ => .inl rfl,
      fun _ _ => hne', fun hu => by cases hu⟩
    · have hrel := hc.relocates
      have hv2p : p.virtualToPhysical = s.virtualToPhysical := by rw [hframe]
      simp only [committedState, hv2p] at hrel ⊢
      exact hrel
    · change cfg.key (cfg.growDirection.retreat p.watermark p.freePhysPages.length) ≤ _
      omega
    · change p.freeVirtualIds = _
      rw [hframe]
    · change p.inFreeGroup = _
      rw [hframe]
    · change p.freeGroup = _
      rw [hframe]
    · change p.latestForwardDoneEvent = _
      rw [hframe]
    · -- the walk starts with the write set and never asks for it
      change w.inflight = _ ∨ w.inflight = _
      rcases hw.writes with ⟨_, hw⟩ | ⟨hnone, _⟩
      · rw [hw]
        exact hinflight
      · cases hnone

end EndInv

namespace EndInv

open MultiEndedAllocator

/-- The other flushes leave the watermark where the absorption left it. -/
theorem flushPartial (h : EndInv cfg s live) (hlazy : cfg.lazyCompaction = true) (q : Queries)
    (urgent : Bool) (hpart : urgent = true → (s.flushPrepare cfg q urgent).freePhysPages = [])
    (hok : urgent = false → s.overwrites cfg q = false) :
    ∃ t moves live', s.flush cfg q urgent = some (t, moves) ∧ EndInv cfg t live' ∧
      Flushed cfg q urgent s t moves := by
  obtain ⟨⟨hp, hsorted, hle, hframe⟩, _⟩ := h.flushPrepare q urgent
  have hcond : (decide (urgent = true ∧ (s.flushPrepare cfg q urgent).freePhysPages ≠ [])) =
      false := by
    rw [decide_eq_false_iff_not]
    rintro ⟨hu, hne⟩
    exact hne (hpart hu)
  obtain ⟨w, heq, hw, hc, _⟩ := hp.walk hsorted q.write urgent none
  have hnomove : urgent = true → w.moves = [] := by
    -- without holes the walk ends at once
    rintro rfl
    have hnil : cfg.growDirection.innerFirst [] = [] := by cases cfg.growDirection <;> rfl
    rw [hpart rfl, hnil] at heq
    cases heq
    rfl
  -- no entry of the dictionary is replaced
  have hnew : ∀ e, s.latestForwardDoneEvent = some e → q.commit e = false → w.moves ≠ [] →
      e ∉ (s.flushPrepare cfg q urgent).pendingReuse.map Prod.fst := by
    intro e hlatest hwait hmoves he
    cases urgent with
    | true => exact hmoves (hnomove rfl)
    | false =>
      obtain ⟨hmem, hdrain⟩ := mem_flushPrepare_events he
      have hover := hok rfl
      have hmp := movesPage_of_moves heq hmoves
      unfold overwrites at hover
      rw [hlatest] at hover
      simp [hmem, hdrain, hwait, hmp] at hover
  have hkept : ∀ x ∈ s.pendingReuse, x ∈ (s.flushPrepare cfg q urgent).pendingReuse ∨
      q.drain x.1 = true ∨ urgent = true := fun x hx => mem_flushPrepare_pending hx
  unfold MultiEndedAllocator.flush
  rw [if_neg (by simp [hlazy])]
  generalize s.flushPrepare cfg q urgent = p at *
  have hlatest : p.latestForwardDoneEvent = s.latestForwardDoneEvent := by rw [hframe]
  have hp' := hp.setEvents p.latestForwardDoneEvent w.inflight
  have hholes := hw.holes_perm
  have hset : ∀ query, p.materializeInflightWriteSet cfg query =
      s.materializeInflightWriteSet cfg query := by
    intro query
    rw [hframe]
    rfl
  -- what a state has that keeps the rest of `p`
  have hflushed : ∀ u : MultiEndedAllocator, u = { p.committedState w.moves with
        freePhysPages := u.freePhysPages
        pendingReuse := u.pendingReuse
        pendingReusePagesCpu := u.pendingReusePagesCpu
        inflightForward := w.inflight } →
      (∀ x ∈ p.pendingReuse, x ∈ u.pendingReuse) →
      (∀ m ∈ w.moves, s.latestForwardDoneEvent = none ∨
        ∃ e, s.latestForwardDoneEvent = some e ∧
          (q.commit e = true ∨ ∃ l, (e, l) ∈ u.pendingReuse ∧ m.src ∈ l)) →
      Flushed cfg q urgent s u w.moves := by
    intro u hu hold hwaits
    refine ⟨?_, ?_, ?_, ?_, ?_, ?_, ?_, ?_, fun m hm => .inr (hwaits m hm),
      fun hu hne => absurd (hnomove hu) hne, ?_⟩
    · have hrel := hc.relocates
      have hv2p : p.virtualToPhysical = s.virtualToPhysical := by rw [hframe]
      rw [hu, ← hv2p]
      exact hrel
    · rw [hu]
      exact hle
    · rw [hu, hframe]
      rfl
    · rw [hu, hframe]
      rfl
    · rw [hu, hframe]
      rfl
    · rw [hu, hframe]
      rfl
    · rw [hu]
      change w.inflight = _ ∨ w.inflight = _
      have hsame : p.inflightForward = s.inflightForward := by rw [hframe]
      rcases hw.writes with ⟨_, hw⟩ | ⟨_, _, hw⟩
      · exact .inl (hw.trans hsame)
      · rw [hw, hset]
        unfold materializeInflightWriteSet
        split
        · exact .inr rfl
        · next hsome =>
          split
          · exact .inr rfl
          · exact .inl hsome.symm
    · intro x hx
      exact (hkept x hx).imp_left (hold x)
    · intro _ m hm
      obtain ⟨set, hset', hm⟩ := hw.unraced m hm
      rcases hw.writes with ⟨hnone, _⟩ | ⟨_, hsome, _⟩
      · rw [hnone] at hset'
        cases hset'
      · rw [hset', hset] at hsome
        cases hsome
        exact hm
  simp only [hcond, Bool.false_eq_true, if_false, heq, Option.bind_eq_bind, Option.bind_some]
  by_cases hwait : ∃ e, p.latestForwardDoneEvent = some e ∧ q.commit e = false ∧ w.moves ≠ []
  · obtain ⟨e, he, hcommit, hmoves⟩ := hwait
    have hinv := hp'.waiting hlazy (hnew e (hlatest ▸ he) hcommit hmoves) hsorted hc hholes
    -- the event is rewritten in the argument only, not in the field it was read from
    have hpend : ∀ u : MultiEndedAllocator,
        u.commitMoveBatch q.commit w.moves p.latestForwardDoneEvent =
          u.commitMoveBatch q.commit w.moves (some e) := by
      intro u
      rw [he]
    simp only [hpend, commitMoveBatch_pending hmoves hcommit, if_true]
    have hdict : dictSet p.pendingReuse e (w.moves.map Move.src) =
        p.pendingReuse ++ [(e, w.moves.map Move.src)] :=
      if_neg (hnew e (hlatest ▸ he) hcommit hmoves)
    refine ⟨_, w.moves, _, rfl, hinv, hflushed _ rfl ?_ ?_⟩
    · intro x hx
      rw [show (dictSet p.pendingReuse e (w.moves.map Move.src)) = _ from hdict]
      exact mem_append_left _ hx
    · intro m hm
      refine .inr ⟨e, hlatest ▸ he, .inr ⟨w.moves.map Move.src, ?_, mem_map_of_mem hm⟩⟩
      rw [show (dictSet p.pendingReuse e (w.moves.map Move.src)) = _ from hdict]
      exact mem_append_right _ (mem_singleton.mpr rfl)
  · -- the readers are done, or nothing was moved
    have hinv := hp'.released hlazy hsorted hc hholes
    have hcommit : ({ p with inflightForward := w.inflight } : MultiEndedAllocator).commitMoveBatch
        q.commit w.moves p.latestForwardDoneEvent =
        (({ p with inflightForward := w.inflight } : MultiEndedAllocator).committedState w.moves,
          w.moves.map Move.src) := by
      by_cases hmoves : w.moves = []
      · rw [hmoves]
        rfl
      · apply commitMoveBatch_fired
        intro e he
        by_contra hq
        exact hwait ⟨e, he, by simpa using hq, hmoves⟩
    simp only [hcommit]
    refine ⟨_, w.moves, _, rfl, hinv, hflushed _ rfl (fun x hx => hx) ?_⟩
    intro m hm
    rw [← hlatest]
    cases he : p.latestForwardDoneEvent with
    | none => exact .inl rfl
    | some e =>
      refine .inr ⟨e, rfl, .inl ?_⟩
      by_contra hq
      exact hwait ⟨e, he, by simpa using hq, ne_nil_of_mem hm⟩

/-- `_flush` returns and keeps the invariant, unless it is not urgent and replaces an entry of
`_pending_reuse`. -/
theorem flush (h : EndInv cfg s live) (q : Queries) (urgent : Bool)
    (hok : urgent = false → s.overwrites cfg q = false) :
    ∃ t moves live', s.flush cfg q urgent = some (t, moves) ∧ EndInv cfg t live' ∧
      Flushed cfg q urgent s t moves := by
  cases hlazy : cfg.lazyCompaction with
  | false =>
    refine ⟨s, [], live, by simp [MultiEndedAllocator.flush, hlazy], h, ?_⟩
    exact ⟨⟨by simp, by simp, by simp, by simp, rfl⟩, le_refl _, rfl, rfl, rfl, rfl, .inl rfl,
      fun x hx => .inl hx, by simp, by simp, by simp⟩
  | true =>
    by_cases hfull : urgent = true ∧ (s.flushPrepare cfg q urgent).freePhysPages ≠ []
    · obtain ⟨rfl, hne⟩ := hfull
      exact h.flushFull hlazy q hne
    · apply h.flushPartial hlazy q urgent ?_ hok
      intro hu
      by_contra hne
      exact hfull ⟨hu, hne⟩

end EndInv

end Sglang.MemCache
