import Sglang.MemCache.MultiEndedFree

/-!
# The Survivor Walk of a Two-Ended Pool

The parts of `_flush` (`mem_cache/multi_ended_allocator.py`).

- `EndInv.flushPrepare`: draining, sorting and absorbing boundary holes,
- `scan_spec`: the topmost survivor,
- `flushLoop_spec`: the survivor walk fills the inner holes from the outer end of the band, and an
  urgent walk leaves the band packed,
- `EndInv.committed`: the tables after the moves of a walk.
-/

namespace Sglang.MemCache

open List Function
open Sglang.Lib

variable {cfg : EndConfig} {s t : MultiEndedAllocator} {live : List Int}

/-! ## Section 1: Draining -/

namespace MultiEndedAllocator

theorem flatMap_filter_perm (d : List (Event × List Int)) (ready : Event × List Int → Bool) :
    ((d.filter ready).flatMap Prod.snd ++ (d.filter fun e => !ready e).flatMap Prod.snd).Perm
      (d.flatMap Prod.snd) := by
  rw [← flatMap_append]
  exact (filter_append_perm ready d).flatMap_right _

end MultiEndedAllocator

namespace EndInv

open MultiEndedAllocator

theorem drainPendingReuse (h : EndInv cfg s live) (query : Event → Bool) (urgent : Bool) :
    EndInv cfg (s.drainPendingReuse cfg query urgent) live := by
  unfold MultiEndedAllocator.drainPendingReuse
  dsimp only
  split
  · exact h
  next hready =>
  generalize hpred : (fun e : Event × List Int => query e.1 || urgent) = pred at *
  have hnot : (fun e : Event × List Int => !(query e.1 || urgent)) = fun e => !pred e := by
    rw [← hpred]
  have hpages := flatMap_filter_perm s.pendingReuse pred
  rw [hnot]
  generalize hready' : (s.pendingReuse.filter pred).flatMap Prod.snd = ready at *
  generalize hrest : s.pendingReuse.filter (fun e => !pred e) = rest at *
  -- the drained pages move from one list to the other
  have hperm : (live ++ mergeFree cfg (s.freePhysPages ++ ready) ++ rest.flatMap Prod.snd).Perm
      (live ++ s.freePhysPages ++ s.pendingPages) := by
    calc (live ++ mergeFree cfg (s.freePhysPages ++ ready) ++ rest.flatMap Prod.snd).Perm
          (live ++ (s.freePhysPages ++ ready) ++ rest.flatMap Prod.snd) :=
          ((mergeFree_perm _).append_left _).append_right _
      _ |>.Perm (live ++ s.freePhysPages ++ (ready ++ rest.flatMap Prod.snd)) := by
          simp only [List.append_assoc]
          exact .refl _
      _ |>.Perm (live ++ s.freePhysPages ++ s.pendingPages) := hpages.append_left _
  have hdisj : ∀ p ∈ ready, p ∉ rest.flatMap Prod.snd := by
    intro p hp hq
    have hnodup := (nodup_append.mp h.band.nodup).2.1
    exact (nodup_append.mp (hpages.nodup_iff.mpr hnodup)).2.2 p hp p hq rfl
  refine
    { watermark := h.watermark
      band := h.band.perm hperm
      inverse := h.inverse
      live_iff := h.live_iff
      anchor := h.anchor
      pending_cpu := ?_
      events_nodup := ?_
      count := h.count
      eager := ?_
      sorted := fun hsort => mergeFree_sorted hsort _
      virtualIds := fun ho => ⟨(h.virtualIds ho).nodup, (h.virtualIds ho).unbound,
        (h.virtualIds ho).length⟩
      group := h.group
      grouped := ⟨h.grouped.bound, h.grouped.nodup⟩ }
  · ext p
    simp only [h.pending_cpu, Finset.mem_sdiff, mem_toFinset, pendingPages]
    rw [← hpages.mem_iff, mem_append]
    constructor
    · rintro ⟨hp | hp, hnot⟩
      · exact absurd hp hnot
      · exact hp
    · intro hp
      exact ⟨.inr hp, fun hq => hdisj p hq hp⟩
  · rw [← hrest]
    exact (filter_sublist.map _).nodup h.events_nodup
  · intro he
    rw [(h.eager he).2] at hready
    exact absurd rfl hready

theorem drain_urgent (s : MultiEndedAllocator) (query : Event → Bool) :
    (s.drainPendingReuse cfg query true).pendingReuse = [] := by
  unfold MultiEndedAllocator.drainPendingReuse
  simp only [Bool.or_true, Bool.not_true]
  split
  · next hready => simpa using hready
  · simp

end EndInv

/-! ## Section 2: Absorbing boundary holes -/

namespace MultiEndedAllocator

theorem mem_boundaryRun {l : List Int} : ∀ {p : Int} (q : Int),
    q ∈ l.take (boundaryRun cfg p l) ↔
      cfg.key p - boundaryRun cfg p l < cfg.key q ∧ cfg.key q ≤ cfg.key p := by
  induction l with
  | nil =>
    intro p q
    simp only [boundaryRun, take_nil, not_mem_nil, false_iff]
    omega
  | cons h l ih =>
    intro p q
    unfold boundaryRun
    split
    · next hp =>
      subst hp
      have hin : cfg.key (cfg.growDirection.inward h) = cfg.key h - 1 :=
        cfg.growDirection.key_inward h
      rw [take_succ_cons, mem_cons, ih, hin]
      push_cast
      constructor
      · rintro (rfl | hq)
        · omega
        · omega
      · intro hq
        by_cases heq : cfg.key q = cfg.key h
        · exact .inl (cfg.key_injective heq)
        · exact .inr (by omega)
    · simp only [take_zero, not_mem_nil, false_iff]
      omega

theorem boundaryRun_le (p : Int) (l : List Int) : boundaryRun cfg p l ≤ l.length := by
  induction l generalizing p with
  | nil => rfl
  | cons h l ih =>
    unfold boundaryRun
    split
    · have := ih (cfg.growDirection.inward p)
      simp only [length_cons]
      omega
    · omega

end MultiEndedAllocator

namespace EndInv

open MultiEndedAllocator

theorem absorbBoundaryHoles (h : EndInv cfg s live) :
    EndInv cfg (s.absorbBoundaryHoles cfg) live ∧
      cfg.key (s.absorbBoundaryHoles cfg).watermark ≤ cfg.key s.watermark := by
  unfold MultiEndedAllocator.absorbBoundaryHoles
  dsimp only
  generalize hn : boundaryRun cfg (cfg.growDirection.frontierPage s.watermark)
    (cfg.growDirection.outerFirst s.freePhysPages) = n
  have hfront : cfg.key (cfg.growDirection.frontierPage s.watermark) = cfg.key s.watermark - 1 :=
    cfg.growDirection.key_frontierPage _
  have hkey : cfg.key (cfg.growDirection.retreat s.watermark n) = cfg.key s.watermark - n :=
    cfg.growDirection.key_retreat _ _
  have hle : n ≤ s.freePhysPages.length := by
    rw [← hn]
    refine (boundaryRun_le _ _).trans ?_
    simp [cfg.growDirection.outerFirst_eq]
  generalize hrun : (cfg.growDirection.outerFirst s.freePhysPages).take n = run
  have hrun_mem : ∀ q, q ∈ run ↔
      cfg.key s.watermark - 1 - n < cfg.key q ∧ cfg.key q ≤ cfg.key s.watermark - 1 := by
    intro q
    rw [← hrun, ← hn, mem_boundaryRun, hfront]
  have hrun_len : run.length = n := by
    rw [← hrun, length_take, cfg.growDirection.outerFirst_eq, length_reverse,
      cfg.growDirection.length_innerFirst]
    omega
  -- the holes are those that stay and the run
  have hholes : (cfg.growDirection.cutOuter n s.freePhysPages ++ run).Perm s.freePhysPages := by
    have hrun' : run = ((cfg.growDirection.innerFirst s.freePhysPages).drop
        (s.freePhysPages.length - n)).reverse := by
      rw [← hrun, cfg.growDirection.outerFirst_eq, take_reverse,
        cfg.growDirection.length_innerFirst]
    calc (cfg.growDirection.cutOuter n s.freePhysPages ++ run).Perm
          ((cfg.growDirection.innerFirst s.freePhysPages).take (s.freePhysPages.length - n) ++
            (cfg.growDirection.innerFirst s.freePhysPages).drop (s.freePhysPages.length - n)) := by
          rw [← cfg.growDirection.innerFirst_cutOuter, hrun']
          exact (cfg.growDirection.innerFirst_perm _).symm.append (List.reverse_perm _)
      _ |>.Perm s.freePhysPages := by
          rw [take_append_drop]
          exact cfg.growDirection.innerFirst_perm _
  have hband : Band cfg s.watermark
      (live ++ cfg.growDirection.cutOuter n s.freePhysPages ++ s.pendingPages ++ run) := by
    apply h.band.perm
    calc (live ++ cfg.growDirection.cutOuter n s.freePhysPages ++ s.pendingPages ++ run).Perm
          (live ++ (cfg.growDirection.cutOuter n s.freePhysPages ++ run) ++ s.pendingPages) := by
          simp only [List.append_assoc]
          exact (List.Perm.append_left _ perm_append_comm).append_left _
      _ |>.Perm (live ++ s.freePhysPages ++ s.pendingPages) :=
          (hholes.append_left _).append_right _
  have hcut : Band cfg (cfg.growDirection.retreat s.watermark n)
      (live ++ cfg.growDirection.cutOuter n s.freePhysPages ++ s.pendingPages) := by
    apply hband.cut (by omega)
    · -- a page that stays is not one of the run
      intro p hp
      have hin := (hband.mem_key.mp (mem_append_left _ hp)).2
      have hnot : p ∉ run := fun hr => (nodup_append.mp hband.nodup).2.2 p hp p hr rfl
      rw [hrun_mem] at hnot
      omega
    · intro p hp
      have := (hrun_mem p).mp hp
      omega
  have hlen := hband.length h.watermark.1
  rw [length_append, hrun_len] at hlen
  push_cast at hlen
  have hwm := h.watermark.2
  refine ⟨?_, by omega⟩
  refine
    { watermark := ⟨by dsimp only; omega, by dsimp only; omega⟩
      band := hcut
      inverse := h.inverse
      live_iff := h.live_iff
      anchor := h.anchor
      pending_cpu := h.pending_cpu
      events_nodup := h.events_nodup
      count := h.count
      eager := ?_
      sorted := fun hsort => (h.sorted hsort).sublist (cfg.growDirection.cutOuter_sublist _ _)
      virtualIds := fun ho => ⟨(h.virtualIds ho).nodup, (h.virtualIds ho).unbound,
        (h.virtualIds ho).length⟩
      group := h.group
      grouped := ⟨h.grouped.bound, h.grouped.nodup⟩ }
  intro he
  have hsub := cfg.growDirection.cutOuter_sublist n s.freePhysPages
  rw [(h.eager he).1] at hsub ⊢
  exact ⟨eq_nil_of_sublist_nil hsub, (h.eager he).2⟩

theorem sortHoles (h : EndInv cfg s live) :
    EndInv cfg { s with freePhysPages := sortPages s.freePhysPages } live := by
  have hperm := Allocator.sortPages_perm s.freePhysPages
  refine
    { watermark := h.watermark
      band := h.band.perm ((hperm.append_left _).append_right _)
      inverse := h.inverse
      live_iff := h.live_iff
      anchor := h.anchor
      pending_cpu := h.pending_cpu
      events_nodup := h.events_nodup
      count := h.count
      eager := ?_
      sorted := fun _ => pairwise_insertionSort _ _
      virtualIds := fun ho => ⟨(h.virtualIds ho).nodup, (h.virtualIds ho).unbound,
        (h.virtualIds ho).length⟩
      group := h.group
      grouped := ⟨h.grouped.bound, h.grouped.nodup⟩ }
  intro he
  obtain ⟨hnil, hpnil⟩ := h.eager he
  refine ⟨?_, hpnil⟩
  dsimp only
  rw [hnil]
  rfl

end EndInv

/-- A flush after its steps 1 to 5: the holes are sorted, the tables as before. -/
structure Prepared (cfg : EndConfig) (s t : MultiEndedAllocator) (live : List Int) : Prop where
  inv : EndInv cfg t live
  sorted : t.freePhysPages.Pairwise (· ≤ ·)
  watermark_le : cfg.key t.watermark ≤ cfg.key s.watermark
  frame : t = { s with watermark := t.watermark, freePhysPages := t.freePhysPages,
                       pendingReuse := t.pendingReuse,
                       pendingReusePagesCpu := t.pendingReusePagesCpu }

namespace EndInv

open MultiEndedAllocator

theorem flushPrepare (h : EndInv cfg s live) (q : Queries) (urgent : Bool) :
    Prepared cfg s (s.flushPrepare cfg q urgent) live ∧
      (urgent = true → (s.flushPrepare cfg q urgent).pendingReuse = []) := by
  have h₁ := h.drainPendingReuse q.drain urgent
  have hframe₁ : s.drainPendingReuse cfg q.drain urgent = { s with
      freePhysPages := (s.drainPendingReuse cfg q.drain urgent).freePhysPages
      pendingReuse := (s.drainPendingReuse cfg q.drain urgent).pendingReuse
      pendingReusePagesCpu := (s.drainPendingReuse cfg q.drain urgent).pendingReusePagesCpu } := by
    unfold MultiEndedAllocator.drainPendingReuse
    dsimp only
    split <;> rfl
  have hempty : urgent = true → (s.drainPendingReuse cfg q.drain urgent).pendingReuse = [] := by
    rintro rfl
    exact drain_urgent s q.drain
  unfold MultiEndedAllocator.flushPrepare
  generalize s.drainPendingReuse cfg q.drain urgent = s₁ at *
  -- the free list is sorted now, whichever way
  have hsort : ∃ s₂, (if ¬ cfg.sortAfterMerge ∧ 1 < s₁.freePhysPages.length then
        { s₁ with freePhysPages := sortPages s₁.freePhysPages } else s₁) = s₂ ∧
      EndInv cfg s₂ live ∧ s₂.freePhysPages.Pairwise (· ≤ ·) ∧
      s₂ = { s₁ with freePhysPages := s₂.freePhysPages } := by
    split
    · exact ⟨_, rfl, h₁.sortHoles, pairwise_insertionSort _ _, rfl⟩
    · next hcond =>
      refine ⟨s₁, rfl, h₁, ?_, rfl⟩
      by_cases hs : cfg.sortAfterMerge = true
      · exact h₁.sorted hs
      · have hlen : s₁.freePhysPages.length ≤ 1 := by
          by_contra hlt
          exact hcond ⟨hs, by omega⟩
        match hl : s₁.freePhysPages, hlen with
        | [], _ => exact List.Pairwise.nil
        | [p], _ => exact pairwise_singleton _ _
  obtain ⟨s₂, heq, h₂, hsorted, hframe₂⟩ := hsort
  obtain ⟨h₃, hle⟩ := h₂.absorbBoundaryHoles
  simp only [heq]
  have hwm : s₂.watermark = s.watermark := by rw [hframe₂, hframe₁]
  refine ⟨⟨h₃, ?_, hwm ▸ hle, ?_⟩, ?_⟩
  · exact hsorted.sublist (cfg.growDirection.cutOuter_sublist _ _)
  · unfold MultiEndedAllocator.absorbBoundaryHoles
    rw [hframe₂, hframe₁]
  · intro hu
    have hpend : s₂.pendingReuse = s₁.pendingReuse := by rw [hframe₂]
    exact hpend.trans (hempty hu)

end EndInv

/-! ## Section 3: The topmost survivor -/

/-- `rest` has the holes up to key `k`, and perhaps more, from the frontier on. -/
structure Rests (cfg : EndConfig) (holes : List Int) (k : Int) (rest : List Int) : Prop where
  sub : ∀ h ∈ rest, h ∈ holes
  mem : ∀ h ∈ holes, cfg.key h ≤ k → h ∈ rest
  sorted : rest.Pairwise fun a b => cfg.key b < cfg.key a

namespace Rests

variable {cfg : EndConfig} {holes rest : List Int} {k : Int}

theorem dropWhile (h : Rests cfg holes k rest) {p : Int} (hp : cfg.key p = k) :
    Rests cfg holes k (rest.dropWhile fun q => cfg.growDirection.outer q p) ∧
      ∀ q ∈ rest.dropWhile (fun q => cfg.growDirection.outer q p), cfg.key q ≤ k := by
  obtain ⟨hsub, hmem, hsort⟩ := h
  have hsuff := dropWhile_sublist (fun q => cfg.growDirection.outer q p) (l := rest)
  have houter : ∀ q, cfg.growDirection.outer q p = true ↔ k < cfg.key q := by
    intro q
    rw [← hp]
    exact cfg.growDirection.outer_iff q p
  refine ⟨⟨fun q hq => hsub q (hsuff.subset hq), ?_, hsort.sublist hsuff⟩, ?_⟩
  · intro q hq hle
    have hrest := hmem q hq hle
    rw [← takeWhile_append_dropWhile (p := fun q => cfg.growDirection.outer q p)
      (l := rest)] at hrest
    rcases mem_append.mp hrest with htake | hdrop
    · have hall := all_takeWhile (p := fun q => cfg.growDirection.outer q p) (l := rest)
      have := (houter q).mp (all_eq_true.mp hall q htake)
      omega
    · exact hdrop
  · -- the first one left is not beyond the cursor, and the others lie further in
    intro q hq
    have hsorted := hsort.sublist hsuff
    have hhead := head?_dropWhile_not (fun q => cfg.growDirection.outer q p) rest
    cases hl : rest.dropWhile (fun q => cfg.growDirection.outer q p) with
    | nil =>
      rw [hl] at hq
      cases hq
    | cons a l =>
      rw [hl] at hq hsorted hhead
      simp only [head?_cons] at hhead
      have ha : cfg.key a ≤ k := by
        have hfalse : cfg.growDirection.outer a p = false := by simpa using hhead
        have hnot : ¬ k < cfg.key a := by
          rw [← houter, hfalse]
          exact Bool.false_ne_true
        omega
      rcases mem_cons.mp hq with rfl | hq
      · exact ha
      · have := (pairwise_cons.mp hsorted).1 q hq
        omega

theorem pass {p : Int} {l : List Int} (h : Rests cfg holes k (p :: l)) (hp : cfg.key p = k) :
    Rests cfg holes (k - 1) l := by
  obtain ⟨hsub, hmem, hsort⟩ := h
  refine ⟨fun q hq => hsub q (mem_cons_of_mem _ hq), ?_, (pairwise_cons.mp hsort).2⟩
  intro q hq hle
  rcases mem_cons.mp (hmem q hq (by omega)) with rfl | hq
  · omega
  · exact hq

theorem mono (h : Rests cfg holes k rest) {k' : Int} (hle : k' ≤ k) : Rests cfg holes k' rest :=
  ⟨h.sub, fun q hq hk => h.mem q hq (hk.trans hle), h.sorted⟩

end Rests

namespace MultiEndedAllocator

/-- What a scan from key `k` finds. -/
structure Found (cfg : EndConfig) (holes : List Int) (pending : Finset Int) (k : Int) (src : Int)
    (rest : List Int) : Prop where
  lo_le : cfg.lo ≤ cfg.key src
  le : cfg.key src ≤ k
  not_hole : src ∉ holes
  not_pending : src ∉ pending
  topmost : ∀ q, cfg.key src < cfg.key q → cfg.key q ≤ k → q ∈ holes ∨ q ∈ pending
  rests : Rests cfg holes (cfg.key src - 1) rest

/-- The scan finds the outermost page that is neither a hole nor pending, if there is one. -/
theorem scan_spec {holes : List Int} {pending : Finset Int} {fuel : Nat} :
    ∀ {p : Int} {rest : List Int}, Rests cfg holes (cfg.key p) rest →
      fuel = (cfg.key p + 1 - cfg.lo).toNat →
      (∃ src rest', scan cfg pending fuel p rest = (some src, rest') ∧
        Found cfg holes pending (cfg.key p) src rest') ∨
      (∃ rest', scan cfg pending fuel p rest = (none, rest') ∧
        ∀ q, cfg.lo ≤ cfg.key q → cfg.key q ≤ cfg.key p → q ∈ holes ∨ q ∈ pending) := by
  induction fuel with
  | zero =>
    intro p rest _ hfuel
    refine .inr ⟨rest, rfl, fun q hlo hle => ?_⟩
    omega
  | succ fuel ih =>
    intro p rest hrest hfuel
    obtain ⟨hrest₁, hbound⟩ := hrest.dropWhile rfl
    unfold scan
    dsimp only
    generalize rest.dropWhile (fun q => cfg.growDirection.outer q p) = rest₁ at *
    have hin : cfg.key (cfg.growDirection.inward p) = cfg.key p - 1 :=
      cfg.growDirection.key_inward p
    have hfuel' : fuel = (cfg.key (cfg.growDirection.inward p) + 1 - cfg.lo).toNat := by omega
    -- the page is a hole or pending: the scan goes on one page further in
    have hnext : ∀ {rest₂ : List Int}, p ∈ holes ∨ p ∈ pending →
        Rests cfg holes (cfg.key p - 1) rest₂ →
        (∃ src rest', scan cfg pending fuel (cfg.growDirection.inward p) rest₂ =
            (some src, rest') ∧ Found cfg holes pending (cfg.key p) src rest') ∨
        (∃ rest', scan cfg pending fuel (cfg.growDirection.inward p) rest₂ = (none, rest') ∧
          ∀ q, cfg.lo ≤ cfg.key q → cfg.key q ≤ cfg.key p → q ∈ holes ∨ q ∈ pending) := by
      intro rest₂ hp hrest₂
      have hcover : ∀ q, cfg.key q ≤ cfg.key p → ¬ cfg.key q ≤ cfg.key p - 1 →
          q ∈ holes ∨ q ∈ pending := by
        intro q hle hnot
        have hq : q = p := cfg.key_injective (by omega)
        rw [hq]
        exact hp
      rcases ih (by rw [hin]; exact hrest₂) hfuel' with ⟨src, rest', heq, hf⟩ | ⟨rest', heq, hall⟩
      · refine .inl ⟨src, rest', heq, hf.lo_le, ?_, hf.not_hole, hf.not_pending, ?_, hf.rests⟩
        · have := hf.le
          omega
        · intro q hlt hle
          by_cases hk : cfg.key q ≤ cfg.key p - 1
          · exact hf.topmost q hlt (by omega)
          · exact hcover q hle hk
      · refine .inr ⟨rest', heq, fun q hlo hle => ?_⟩
        by_cases hk : cfg.key q ≤ cfg.key p - 1
        · exact hall q hlo (by omega)
        · exact hcover q hle hk
    split
    · next hhead =>
      -- the cursor stands on a hole
      obtain ⟨l, rfl⟩ : ∃ l, rest₁ = p :: l := by
        cases rest₁ with
        | nil => cases hhead
        | cons a l =>
          cases hhead
          exact ⟨l, rfl⟩
      apply hnext (.inl (hrest₁.sub p (by simp)))
      exact hrest₁.pass rfl
    · next hhead =>
      have hnot : p ∉ holes := by
        intro hp
        have hmem := hrest₁.mem p hp (le_refl _)
        cases rest₁ with
        | nil => cases hmem
        | cons a l =>
          -- the list is sorted, so the page would stand first
          rcases mem_cons.mp hmem with rfl | hl
          · exact hhead rfl
          · have := (pairwise_cons.mp hrest₁.sorted).1 p hl
            have := hbound a (by simp)
            omega
      split
      · next hpend => exact hnext (.inr hpend) (hrest₁.mono (by omega))
      · next hpend =>
        refine .inl ⟨p, rest₁, rfl, by omega, le_refl _, hnot, hpend, ?_, hrest₁.mono (by omega)⟩
        intro q hlt hle
        omega

end MultiEndedAllocator

/-! ## Section 4: The survivor walk -/

theorem take_lt_drop {cfg : EndConfig} {l : List Int}
    (hsort : l.Pairwise fun a b => cfg.key a < cfg.key b) {j : Nat} {a b : Int}
    (ha : a ∈ l.take j) (hb : b ∈ l.drop j) : cfg.key a < cfg.key b := by
  rw [← take_append_drop j l] at hsort
  exact (pairwise_append.mp hsort).2.2 a ha b hb

namespace MultiEndedAllocator

/-- The moves that a walk over the holes `inner` has chosen. `ws` is the write set it started
with. -/
structure Walked (cfg : EndConfig) (s : MultiEndedAllocator) (query : Event → Bool)
    (live inner : List Int) (ws : Option (List Int)) (w : Walk) : Prop where
  dsts : w.moves.map Move.dst = inner.take w.moves.length
  bound : ∀ m ∈ w.moves, s.physicalToVirtual m.src = some m.virt
  src_live : ∀ m ∈ w.moves, m.src ∈ live
  cross : ∀ m ∈ w.moves, ∀ m' ∈ w.moves, cfg.key m.dst < cfg.key m'.src
  srcs_sorted : (w.moves.map Move.src).Pairwise fun a b => cfg.key b < cfg.key a
  unraced : ∀ m ∈ w.moves, ∃ set, w.writeSet = some set ∧ m.src ∉ set
  writes : (w.writeSet = ws ∧ w.inflight = s.inflightForward) ∨
    (ws = none ∧ w.writeSet = some (s.materializeInflightWriteSet cfg query).1 ∧
      w.inflight = (s.materializeInflightWriteSet cfg query).2)

/-- A walk in progress: the pages beyond key `lim` are dealt with. -/
structure Walking (cfg : EndConfig) (s : MultiEndedAllocator) (query : Event → Bool)
    (live inner : List Int) (ws : Option (List Int)) (w : Walk) (lim : Int) : Prop
    extends Walked cfg s query live inner ws w where
  cursor : lim = match w.cursor with
    | none => cfg.key s.watermark - 1
    | some c => cfg.key c
  lim_lt : lim < cfg.key s.watermark
  rests : Rests cfg s.freePhysPages lim w.rest
  beyond : ∀ m ∈ w.moves, lim < cfg.key m.src
  done : ∀ q ∈ live, lim < cfg.key q → ∃ m ∈ w.moves, m.src = q

/-- After the moves every live page lies further in than every free one. -/
def PackedBy (cfg : EndConfig) (live inner : List Int) (moves : List Move) : Prop :=
  ∀ a, (a ∈ live ∧ a ∉ moves.map Move.src) ∨ a ∈ inner.take moves.length →
    ∀ b, b ∈ moves.map Move.src ∨ b ∈ inner.drop moves.length → cfg.key a < cfg.key b

section Walk

variable {cfg : EndConfig} {s : MultiEndedAllocator} {query : Event → Bool}
  {live inner : List Int} {ws : Option (List Int)} {w : Walk} {lim : Int}

theorem Walking.packed (h : Walking cfg s query live inner ws w lim)
    (hsort : inner.Pairwise fun a b => cfg.key a < cfg.key b)
    (hleft : ∀ a ∈ live, a ∉ w.moves.map Move.src → cfg.key a ≤ lim →
      ∀ b ∈ inner.drop w.moves.length, cfg.key a < cfg.key b) :
    PackedBy cfg live inner w.moves := by
  have hlim : ∀ a ∈ live, a ∉ w.moves.map Move.src → cfg.key a ≤ lim := by
    intro a ha hnot
    by_contra hgt
    obtain ⟨m, hm, rfl⟩ := h.done a ha (by omega)
    exact hnot (mem_map_of_mem hm)
  rintro a (⟨ha, hnot⟩ | ha) b (hb | hb)
  · obtain ⟨m, hm, rfl⟩ := mem_map.mp hb
    have := h.beyond m hm
    have := hlim a ha hnot
    omega
  · exact hleft a ha hnot (hlim a ha hnot) b hb
  · rw [← h.dsts] at ha
    obtain ⟨m, hm, rfl⟩ := mem_map.mp ha
    obtain ⟨m', hm', rfl⟩ := mem_map.mp hb
    exact h.cross m hm m' hm'
  · exact take_lt_drop hsort ha hb

theorem Walking.survivor (h : Walking cfg s query live inner ws w lim)
    (hinv : BandInv cfg s live) :
    (∃ src rest', s.topmostSurvivor cfg w.cursor w.rest = (some src, rest') ∧ src ∈ live ∧
      Found cfg s.freePhysPages s.pendingReusePagesCpu lim src rest') ∨
    (∃ rest', s.topmostSurvivor cfg w.cursor w.rest = (none, rest') ∧
      ∀ q ∈ live, ¬ cfg.key q ≤ lim) := by
  have hfront : cfg.key (cfg.growDirection.frontierPage s.watermark) = cfg.key s.watermark - 1 :=
    cfg.growDirection.key_frontierPage _
  have hlt := h.lim_lt
  -- the page that the scan starts from
  obtain ⟨p, hp, hpk⟩ : ∃ p, (w.cursor.elim (cfg.growDirection.frontierPage s.watermark) fun hint =>
      if cfg.growDirection.outer hint (cfg.growDirection.frontierPage s.watermark) then
        cfg.growDirection.frontierPage s.watermark else hint) = p ∧ cfg.key p = lim := by
    have hc := h.cursor
    cases hcur : w.cursor with
    | none =>
      rw [hcur] at hc
      exact ⟨_, rfl, by rw [Option.elim_none, hfront, hc]⟩
    | some c =>
      rw [hcur] at hc
      dsimp only at hc
      rw [Option.elim_some, if_neg]
      · exact ⟨c, rfl, hc.symm⟩
      · rw [cfg.growDirection.outer_iff]
        change ¬ cfg.key _ < cfg.key c
        omega
  have hfuel : cfg.growDirection.either (p + 1 - cfg.minPageIndex).toNat
    ((cfg.numPages : Int) - p).toNat = (cfg.key p + 1 - cfg.lo).toNat := by
    unfold EndConfig.key EndConfig.lo GrowDirection.key
    cases cfg.growDirection <;> simp only [GrowDirection.either]
    congr 1
    omega
  have hrun : s.topmostSurvivor cfg w.cursor w.rest =
      scan cfg s.pendingReusePagesCpu (cfg.key p + 1 - cfg.lo).toNat p w.rest := by
    unfold topmostSurvivor
    rw [← hfuel, ← hp]
    cases w.cursor <;> cases cfg.growDirection <;> rfl
  rw [hrun]
  -- a page of the band that is neither a hole nor pending is live
  have hpart : ∀ q, cfg.lo ≤ cfg.key q → cfg.key q < cfg.key s.watermark →
      q ∉ s.freePhysPages → q ∉ s.pendingReusePagesCpu → q ∈ live := by
    intro q hlo hhi hhole hpend
    have hmem := hinv.band.mem_key.mpr ⟨hlo, hhi⟩
    rw [hinv.pending_cpu, mem_toFinset] at hpend
    simp only [mem_append] at hmem
    tauto
  rcases scan_spec (p := p) (by rw [hpk]; exact h.rests) rfl with
    ⟨src, rest', heq, hf⟩ | ⟨rest', heq, hall⟩
  · rw [hpk] at hf
    refine .inl ⟨src, rest', heq, ?_, hf⟩
    have := hf.le
    exact hpart src hf.lo_le (by omega) hf.not_hole hf.not_pending
  · refine .inr ⟨rest', heq, fun q hq hle => ?_⟩
    have hnodup := hinv.band.nodup
    have hmem : q ∈ live ++ s.freePhysPages ++ s.pendingPages := by simp [hq]
    have hlo := (hinv.band.mem_key.mp hmem).1
    rcases hall q hlo (by omega) with hhole | hpend
    · exact (nodup_append.mp (nodup_append.mp hnodup).1).2.2 q hq q hhole rfl
    · rw [hinv.pending_cpu, mem_toFinset] at hpend
      exact (nodup_append.mp hnodup).2.2 q (by simp [hq]) q hpend rfl

end Walk

end MultiEndedAllocator

namespace MultiEndedAllocator

section Loop

variable {cfg : EndConfig} {s : MultiEndedAllocator} {query : Event → Bool}
  {live inner : List Int} {ws : Option (List Int)}

/-- The walk after it has looked up what the forward writes. -/
def Walk.looked (cfg : EndConfig) (s : MultiEndedAllocator) (query : Event → Bool) (w : Walk)
    (rest : List Int) : Walk :=
  match w.writeSet with
  | some _ => { w with rest := rest }
  | none =>
    { w with
      rest := rest
      writeSet := some (s.materializeInflightWriteSet cfg query).1
      inflight := (s.materializeInflightWriteSet cfg query).2 }

theorem Walked.looked {w : Walk} (h : Walked cfg s query live inner ws w) (rest : List Int) :
    Walked cfg s query live inner ws (w.looked cfg s query rest) := by
  unfold Walk.looked
  cases hw : w.writeSet with
  | some set =>
    have hun := h.unraced
    have hwr := h.writes
    rw [hw] at hun hwr
    exact ⟨h.dsts, h.bound, h.src_live, h.cross, h.srcs_sorted, hun, hwr⟩
  | none =>
    -- no survivor was classified, so no page was moved
    have hnil : w.moves = [] := by
      rw [eq_nil_iff_forall_not_mem]
      intro m hm
      obtain ⟨set, hset, _⟩ := h.unraced m hm
      rw [hw] at hset
      cases hset
    refine ⟨h.dsts, h.bound, h.src_live, h.cross, h.srcs_sorted, ?_, .inr ⟨?_, rfl, rfl⟩⟩
    · intro m hm
      dsimp only at hm
      rw [hnil] at hm
      cases hm
    · rcases h.writes with ⟨heq, _⟩ | ⟨heq, _⟩
      · rw [← heq, hw]
      · exact heq

theorem looked_moves (cfg : EndConfig) (s : MultiEndedAllocator) (query : Event → Bool) (w : Walk)
    (rest : List Int) :
    (w.looked cfg s query rest).moves = w.moves ∧
      (w.looked cfg s query rest).cursor = w.cursor := by
  unfold Walk.looked
  cases w.writeSet <;> exact ⟨rfl, rfl⟩

theorem looked_writeSet (cfg : EndConfig) (s : MultiEndedAllocator) (query : Event → Bool)
    (w : Walk) (rest : List Int) :
    ∃ set, (w.looked cfg s query rest).writeSet = some set ∧
      (∀ old, w.writeSet = some old → set = old) := by
  unfold Walk.looked
  cases w.writeSet with
  | some set => exact ⟨set, rfl, fun old h => Option.some.inj h⟩
  | none => exact ⟨_, rfl, fun old h => by cases h⟩

theorem flushLoop_cons {urgent : Bool} {dst src : Int} {dsts rest set : List Int} {w : Walk}
    (heq : s.topmostSurvivor cfg w.cursor w.rest = (some src, rest))
    (hset : (w.looked cfg s query rest).writeSet = some set) :
    s.flushLoop cfg query urgent (dst :: dsts) w =
      if src ∈ set then some (w.looked cfg s query rest)
      else if cfg.growDirection.outer dst src then some (w.looked cfg s query rest)
      else (s.physicalToVirtual src).bind fun virt =>
        if ¬ urgent ∧ cfg.maxMovesPerCall ≤ (w.moves ++ [(⟨src, dst, virt⟩ : Move)]).length then
          some { w.looked cfg s query rest with
            moves := w.moves ++ [⟨src, dst, virt⟩]
            cursor := some (cfg.growDirection.inward src) }
        else s.flushLoop cfg query urgent dsts
          { w.looked cfg s query rest with
            moves := w.moves ++ [⟨src, dst, virt⟩]
            cursor := some (cfg.growDirection.inward src) } := by
  rw [flushLoop, heq]
  obtain ⟨cursor, rest₀, writeSet, inflight, moves⟩ := w
  cases writeSet with
  | none =>
    cases hset
    dsimp only [Walk.looked]
    cases s.physicalToVirtual src <;> rfl
  | some old =>
    cases hset
    dsimp only [Walk.looked]
    cases s.physicalToVirtual src <;> rfl

theorem Walking.push {w : Walk} {lim src dst : Int} {virt : Nat} {rest dsts : List Int}
    (h : Walking cfg s query live inner ws w lim) (hsort : inner.Pairwise fun a b =>
      cfg.key a < cfg.key b) (hinner : inner.drop w.moves.length = dst :: dsts)
    (hf : Found cfg s.freePhysPages s.pendingReusePagesCpu lim src rest) (hlive : src ∈ live)
    (hcov : ∀ q ∈ live, cfg.key src < cfg.key q → ¬ cfg.key q ≤ lim)
    (hlt : cfg.key dst < cfg.key src) (hvirt : s.physicalToVirtual src = some virt)
    {set : List Int} (hset : (w.looked cfg s query rest).writeSet = some set)
    (hrace : src ∉ set) :
    Walking cfg s query live inner ws
      { w.looked cfg s query rest with
        moves := w.moves ++ [⟨src, dst, virt⟩]
        cursor := some (cfg.growDirection.inward src) } (cfg.key src - 1) := by
  have hl := h.toWalked.looked rest
  have hle := hf.le
  have hlim := h.lim_lt
  have hmoves := (looked_moves cfg s query w rest).1
  -- the new destination lies above the old ones, the new source below the old ones
  have hdst : ∀ m ∈ w.moves, cfg.key m.dst < cfg.key dst := by
    intro m hm
    have hmem : m.dst ∈ inner.take w.moves.length := by
      rw [← h.dsts]
      exact mem_map_of_mem hm
    exact take_lt_drop hsort hmem (by rw [hinner]; simp)
  have hsrc : ∀ m ∈ w.moves, cfg.key src < cfg.key m.src := by
    intro m hm
    have := h.beyond m hm
    omega
  have hlen : w.moves.length < inner.length := by
    by_contra hge
    rw [drop_of_length_le (by omega)] at hinner
    cases hinner
  have hget : inner.take (w.moves.length + 1) = inner.take w.moves.length ++ [dst] := by
    have hsome : inner[w.moves.length]? = some dst := by
      rw [← head?_drop, hinner]
      rfl
    rw [take_add_one, hsome]
    rfl
  refine
    { dsts := ?_
      bound := ?_
      src_live := ?_
      cross := ?_
      srcs_sorted := ?_
      unraced := ?_
      writes := hl.writes
      cursor := ?_
      lim_lt := by omega
      rests := ?_
      beyond := ?_
      done := ?_ }
  · rw [map_append, length_append, h.dsts]
    exact hget.symm
  · intro m hm
    rcases mem_append.mp hm with hm | hm
    · exact h.bound m hm
    · rw [mem_singleton.mp hm]
      exact hvirt
  · intro m hm
    rcases mem_append.mp hm with hm | hm
    · exact h.src_live m hm
    · rw [mem_singleton.mp hm]
      exact hlive
  · intro m hm m' hm'
    rcases mem_append.mp hm with hm | hm <;> rcases mem_append.mp hm' with hm' | hm'
    · exact h.cross m hm m' hm'
    · rw [mem_singleton.mp hm']
      have := hdst m hm
      dsimp only
      omega
    · rw [mem_singleton.mp hm]
      have := hsrc m' hm'
      dsimp only
      omega
    · rw [mem_singleton.mp hm, mem_singleton.mp hm']
      exact hlt
  · rw [map_append, pairwise_append]
    refine ⟨h.srcs_sorted, pairwise_singleton _ _, ?_⟩
    intro a ha b hb
    obtain ⟨m, hm, rfl⟩ := mem_map.mp ha
    simp only [map_cons, map_nil, mem_singleton] at hb
    rw [hb]
    exact hsrc m hm
  · intro m hm
    rcases mem_append.mp hm with hm | hm
    · exact hl.unraced m (by rw [hmoves]; exact hm)
    · rw [mem_singleton.mp hm]
      exact ⟨set, hset, hrace⟩
  · exact (cfg.growDirection.key_inward src).symm
  · unfold Walk.looked
    cases w.writeSet <;> exact hf.rests
  · intro m hm
    rcases mem_append.mp hm with hm | hm
    · have := hsrc m hm
      omega
    · rw [mem_singleton.mp hm]
      dsimp only
      omega
  · intro q hq hgt
    by_cases heq : q = src
    · exact ⟨⟨src, dst, virt⟩, by simp, heq.symm⟩
    · have hne : cfg.key q ≠ cfg.key src := fun hk => heq (cfg.key_injective hk)
      have hbig := hcov q hq (by omega)
      obtain ⟨m, hm, hmq⟩ := h.done q hq (by omega)
      exact ⟨m, by simp [hm], hmq⟩

theorem flushLoop_spec (hinv : BandInv cfg s live) (urgent : Bool)
    (hsort : inner.Pairwise fun a b => cfg.key a < cfg.key b)
    (hholes : ∀ p ∈ inner, p ∈ s.freePhysPages) :
    ∀ (dsts : List Int) {w : Walk} {lim : Int}, Walking cfg s query live inner ws w lim →
      inner.drop w.moves.length = dsts →
      ∃ w', s.flushLoop cfg query urgent dsts w = some w' ∧
        Walked cfg s query live inner ws w' ∧
        (urgent = true → w.writeSet = some [] → PackedBy cfg live inner w'.moves) := by
  intro dsts
  induction dsts with
  | nil =>
    intro w lim h hinner
    refine ⟨w, rfl, h.toWalked, fun _ _ => ?_⟩
    apply h.packed hsort
    intro a _ _ _ b hb
    rw [hinner] at hb
    cases hb
  | cons dst dsts ih =>
    intro w lim h hinner
    have hdstHole : dst ∈ s.freePhysPages := by
      apply hholes
      apply mem_of_mem_drop (i := w.moves.length)
      rw [hinner]
      simp
    have hdisj : ∀ q ∈ live, q ∉ s.freePhysPages := fun q hq hh =>
      (nodup_append.mp (nodup_append.mp hinv.band.nodup).1).2.2 q hq q hh rfl
    rcases h.survivor hinv with ⟨src, rest, heq, hlive, hf⟩ | ⟨rest, heq, hnone⟩
    · have hl := h.toWalked.looked rest
      obtain ⟨hlm, hlc⟩ := looked_moves cfg s query w rest
      obtain ⟨set, hset, hold⟩ := looked_writeSet cfg s query w rest
      -- a live page beyond the survivor is one that the walk has passed
      have hcov : ∀ q ∈ live, cfg.key src < cfg.key q → ¬ cfg.key q ≤ lim := by
        intro q hq hgt hle
        rcases hf.topmost q hgt hle with hh | hp
        · exact hdisj q hq hh
        · rw [hinv.pending_cpu, mem_toFinset] at hp
          exact (nodup_append.mp hinv.band.nodup).2.2 q (by simp [hq]) q hp rfl
      obtain ⟨virt, _, hvirt, _⟩ := hinv.bound_of_live hlive
      rw [flushLoop_cons heq hset]
      split
      · next hin =>
        -- the forward still writes this page
        refine ⟨_, rfl, hl, fun _ hempty => ?_⟩
        rw [hold _ hempty] at hin
        cases hin
      · next hrace =>
        split
        · next hcross =>
          -- the pointers have crossed
          have hcross : cfg.key src < cfg.key dst := (cfg.growDirection.outer_iff dst src).mp hcross
          refine ⟨_, rfl, hl, fun _ _ => ?_⟩
          rw [hlm]
          apply h.packed hsort
          intro a ha hnot hle b hb
          have hsrc : cfg.key a ≤ cfg.key src := by
            by_contra hgt
            exact hcov a ha (by omega) hle
          rw [hinner] at hb
          have hge : cfg.key dst ≤ cfg.key b := by
            rcases mem_cons.mp hb with rfl | hb
            · exact le_refl _
            · have hpair := hsort.sublist (drop_sublist w.moves.length inner)
              rw [hinner] at hpair
              exact ((pairwise_cons.mp hpair).1 b hb).le
          omega
        · next hcross =>
          have hlt : cfg.key dst < cfg.key src := by
            have hge : ¬ cfg.key src < cfg.key dst := fun hlt =>
              hcross ((cfg.growDirection.outer_iff dst src).mpr hlt)
            have hne : cfg.key dst ≠ cfg.key src := by
              intro hk
              rw [cfg.key_injective hk] at hdstHole
              exact hdisj src hlive hdstHole
            omega
          have hpush := h.push hsort hinner hf hlive hcov hlt hvirt hset hrace
          have hnext : inner.drop (w.moves ++ [(⟨src, dst, virt⟩ : Move)]).length = dsts := by
            rw [length_append, ← drop_drop, hinner]
            rfl
          rw [hvirt, Option.bind_some]
          split
          · next hcap =>
            refine ⟨_, rfl, hpush.toWalked, fun hu => ?_⟩
            exact absurd hu (by simpa using hcap.1)
          · obtain ⟨w', heq', hw', hpacked⟩ := ih hpush hnext
            refine ⟨w', heq', hw', fun hu hempty => hpacked hu ?_⟩
            change (w.looked cfg s query rest).writeSet = some []
            rw [hset, hold _ hempty]
    · -- no live page is left
      unfold flushLoop
      simp only [heq]
      refine ⟨_, rfl, ⟨h.dsts, h.bound, h.src_live, h.cross, h.srcs_sorted, h.unraced, h.writes⟩,
        fun _ _ => ?_⟩
      apply h.packed hsort
      intro a ha _ hle
      exact absurd hle (hnone a ha)

end Loop

end MultiEndedAllocator

/-! ## Section 5: Committing the moves -/

/-- The tables after a batch of moves. -/
structure Committed (f₀ : Nat → Option Int) (live : List Int) (moves : List Move)
    (f : Nat → Option Int) (g : Int → Option Nat) : Prop where
  relocates : Relocates f₀ f moves
  inverse : InverseTables f g
  live_iff : ∀ p, p ∈ live.filter (· ∉ moves.map Move.src) ++ moves.map Move.dst ↔
    p ≠ 0 ∧ (g p).isSome
  anchor : f 0 = some 0
  /-- The sources are live pages. -/
  split : live.Perm (live.filter (· ∉ moves.map Move.src) ++ moves.map Move.src)

theorem Relocates.isSome_iff {f f' : Nat → Option Int} {moves : List Move}
    (h : Relocates f f' moves) (v : Nat) : (f' v).isSome ↔ (f v).isSome := by
  rw [h.table]
  rcases scatter_cases (moves.map fun m => (m.virt, some m.dst)) (t := f) v with ⟨_, heq⟩ | hmem
  · rw [heq]
  · obtain ⟨m, hm, heq⟩ := mem_map.mp hmem
    obtain ⟨rfl, hdst⟩ := Prod.mk.inj heq
    rw [← hdst, h.bound m hm]
    simp

namespace MultiEndedAllocator

variable {cfg : EndConfig} {s t : MultiEndedAllocator} {query : Event → Bool}
  {live inner : List Int} {ws : Option (List Int)}

theorem Walked.committed {w : Walk} (h : Walked cfg s query live inner ws w)
    (hinv : BandInv cfg s live) (hsort : inner.Pairwise fun a b => cfg.key a < cfg.key b)
    (hholes : ∀ p ∈ inner, p ∈ s.freePhysPages) :
    Committed s.virtualToPhysical live w.moves
      (scatter s.virtualToPhysical (w.moves.map fun m => (m.virt, some m.dst)))
      (scatter (scatter s.physicalToVirtual (w.moves.map fun m => (m.dst, some m.virt)))
        ((w.moves.map Move.src).map fun p => (p, none))) := by
  have hdisj : ∀ q ∈ live, q ∉ s.freePhysPages := fun q hq hh =>
    (nodup_append.mp (nodup_append.mp hinv.band.nodup).1).2.2 q hq q hh rfl
  have hdstHole : ∀ m ∈ w.moves, m.dst ∈ s.freePhysPages := by
    intro m hm
    apply hholes
    have hmem : m.dst ∈ w.moves.map Move.dst := mem_map_of_mem hm
    rw [h.dsts] at hmem
    exact mem_of_mem_take hmem
  have hne : ∀ m ∈ w.moves, m.dst ≠ 0 := fun m hm =>
    hinv.band.ne_zero hinv.watermark (by simp [hdstHole m hm])
  have hsrcs : (w.moves.map Move.src).Nodup :=
    h.srcs_sorted.imp fun hlt heq => by rw [heq] at hlt; exact lt_irrefl _ hlt
  have hdsts : (w.moves.map Move.dst).Nodup := by
    rw [h.dsts]
    exact (hsort.sublist (take_sublist _ _)).imp fun hlt heq => by
      rw [heq] at hlt
      exact lt_irrefl _ hlt
  have hvacant : ∀ m ∈ w.moves, s.physicalToVirtual m.dst = none := fun m hm =>
    hinv.unbound (hne m hm) fun hlive => hdisj _ hlive (hdstHole m hm)
  -- a source is not a destination, so the order of the two writes does not matter
  have hswap : scatter (scatter s.physicalToVirtual (w.moves.map fun m => (m.dst, some m.virt)))
        ((w.moves.map Move.src).map fun p => (p, none)) =
      scatter (scatter s.physicalToVirtual ((w.moves.map Move.src).map fun p => (p, none)))
        (w.moves.map fun m => (m.dst, some m.virt)) := by
    apply scatter_const_comm
    intro p hp hd
    obtain ⟨m, hm, rfl⟩ := mem_map.mp hp
    simp only [map_map, comp_def] at hd
    obtain ⟨m', hm', heq⟩ := mem_map.mp hd
    have hhole := hdstHole m' hm'
    rw [heq] at hhole
    exact hdisj _ (h.src_live m hm) hhole
  have hmove := hinv.inverse.move hsrcs hdsts h.bound hvacant
  have hbound : ∀ m ∈ w.moves, s.virtualToPhysical m.virt = some m.src := fun m hm =>
    (hinv.inverse _ _).mpr (h.bound m hm)
  rw [hswap]
  refine ⟨⟨hdsts, ?_, hbound, ?_, rfl⟩, hmove, ?_, ?_, ?_⟩
  · refine (nodup_map_iff_inj_on (List.Nodup.of_map _ hsrcs)).mpr ?_
    intro m hm m' hm' hv
    have hv₁ := hbound m hm
    rw [hv, hbound m' hm'] at hv₁
    exact inj_on_of_nodup_map hsrcs hm hm' (Option.some.inj hv₁).symm
  · intro m hm v hv
    have := (hinv.inverse v _).mp hv
    rw [hvacant m hm] at this
    cases this
  · intro p
    simp only [mem_append, mem_filter, decide_eq_true_eq]
    by_cases hd : p ∈ w.moves.map Move.dst
    · obtain ⟨m, hm, rfl⟩ := mem_map.mp hd
      rw [scatter_eq (b := some m.virt) (by simpa [comp_def] using hdsts)
        (mem_map.mpr ⟨m, hm, rfl⟩)]
      simp [hd, hne m hm]
    · rw [scatter_of_not_mem (by simpa [comp_def] using hd), scatter_const]
      split
      · next hs => simp [hs, hd]
      · next hs =>
        rw [hinv.live_iff p]
        simp [hs, hd]
  · rw [scatter_of_not_mem, hinv.anchor]
    simp only [map_map, comp_def]
    intro hmem
    obtain ⟨m, hm, hv⟩ := mem_map.mp hmem
    have hb := hbound m hm
    rw [hv, hinv.anchor] at hb
    exact hinv.in_band (h.src_live m hm) (Option.some.inj hb).symm
  · have hkept : (live.filter (· ∉ w.moves.map Move.src) ++ w.moves.map Move.src).Nodup := by
      refine nodup_append.mpr ⟨hinv.live_nodup.filter _, hsrcs, ?_⟩
      rintro p hp _ hq rfl
      simpa [hq] using (mem_filter.mp hp).2
    refine (perm_ext_iff_of_nodup hinv.live_nodup hkept).mpr fun p => ?_
    simp only [mem_append, mem_filter, decide_eq_true_eq]
    constructor
    · intro hp
      by_cases hin : p ∈ w.moves.map Move.src
      · exact .inr hin
      · exact .inl ⟨hp, hin⟩
    · rintro (hp | hp)
      · exact hp.1
      · obtain ⟨m, hm, rfl⟩ := mem_map.mp hp
        exact h.src_live m hm

end MultiEndedAllocator

namespace EndInv

open MultiEndedAllocator

/-- The invariant after a batch of moves, for a state `t` that lists the pages accordingly. -/
theorem committed (h : EndInv cfg s live) {moves : List Move}
    (hc : Committed s.virtualToPhysical live moves t.virtualToPhysical t.physicalToVirtual)
    (hframe : t.freeVirtualIds = s.freeVirtualIds ∧ t.livePageCount = s.livePageCount ∧
      t.inFreeGroup = s.inFreeGroup ∧ t.freeGroup = s.freeGroup)
    (hlazy : cfg.lazyCompaction = true) (hwm : cfg.Watermark t.watermark)
    (hband : Band cfg t.watermark
      (live.filter (· ∉ moves.map Move.src) ++ moves.map Move.dst ++ t.freePhysPages ++
        t.pendingPages))
    (hcpu : t.pendingReusePagesCpu = t.pendingPages.toFinset)
    (hevents : (t.pendingReuse.map Prod.fst).Nodup)
    (hsorted : cfg.sortAfterMerge = true → t.freePhysPages.Pairwise (· ≤ ·)) :
    EndInv cfg t (live.filter (· ∉ moves.map Move.src) ++ moves.map Move.dst) := by
  obtain ⟨hids, hcount, hin, hgroup⟩ := hframe
  have hlen : (live.filter (· ∉ moves.map Move.src) ++ moves.map Move.dst).length =
      live.length := by
    rw [hc.split.length_eq, length_append, length_append, length_map,
      length_map]
  have hbound : ∀ {v}, s.Bound v → t.Bound v := fun hv =>
    ⟨hv.1, (hc.relocates.isSome_iff _).mpr hv.2⟩
  refine
    { watermark := hwm
      band := hband
      inverse := hc.inverse
      live_iff := hc.live_iff
      anchor := hc.anchor
      pending_cpu := hcpu
      events_nodup := hevents
      count := fun hl => by rw [hcount, h.count hl, hlen]
      eager := fun he => absurd he (by simp [hlazy])
      sorted := hsorted
      virtualIds := fun ho => ?_
      group := fun hg => by rw [hgroup]; exact h.group (hin ▸ hg)
      grouped := ?_ }
  · obtain ⟨hnodup, hunbound, hsum⟩ := h.virtualIds ho
    refine ⟨hids ▸ hnodup, fun v hv => ?_, by rw [hids, hlen]; exact hsum⟩
    rw [hids] at hv
    rw [← Option.not_isSome_iff_eq_none, hc.relocates.isSome_iff, hunbound v hv]
    simp
  · rw [hgroup]
    exact ⟨fun x hx => hbound (h.grouped.bound x hx), h.grouped.nodup⟩

end EndInv

end Sglang.MemCache
