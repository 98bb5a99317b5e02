import Mathlib.Data.Finmap
import Mathlib.Data.Prod.Lex
import Mathlib.Tactic

/-!
# The Staging Ring Allocator

Model of `StagingAllocator` (`disaggregation/common/staging_buffer.py`): a ring of bytes from which
regions are assigned without regard to the regions that are still in use. Each wrap starts a new
round, and the watermark is where the oldest region in use begins.

- `assign`, `free`, `getWatermark`: the methods,
- `Inv`: regions are assigned in lexicographic order of round and offset, and the watermark is not
  above any that is in use,
- `Inv.assign`, `Inv.free`: both calls keep it, and the watermark never decreases.
-/

namespace Sglang.Disaggregation

open List

/-! ## Section 1: Model -/

/-- A region: `(offset, size, round)`. -/
structure Region where
  offset : Nat
  size : Nat
  round : Nat
deriving DecidableEq

def Region.finish (r : Region) : Nat := r.offset + r.size

/-- Where a region begins. Tuples compare lexicographically. -/
def Region.start (r : Region) : ℕ ×ₗ ℕ := toLex (r.round, r.offset)

/-- No byte of the ring is in both regions. -/
def Region.Disjoint (r r' : Region) : Prop :=
  ∀ b, ¬ ((r.offset ≤ b ∧ b < r.finish) ∧ (r'.offset ≤ b ∧ b < r'.finish))

theorem Region.Disjoint.symm {r r' : Region} (h : r.Disjoint r') : r'.Disjoint r :=
  fun b hb => h b hb.symm

structure StagingAllocator where
  totalSize : Nat
  head : Nat
  round : Nat
  allocations : Finmap fun _ : Nat => Region
  allocOrder : List Nat
  nextAllocId : Nat
  watermarkRound : Nat
  watermarkTail : Nat

namespace StagingAllocator

/-- `__init__`. -/
def new (totalSize : Nat) : StagingAllocator := ⟨totalSize, 0, 0, ∅, [], 0, 0, 0⟩

/-- `assign`: the region goes after the last one, or to the start of the ring in a new round. -/
def assign (s : StagingAllocator) (requiredBytes : Nat) :
    StagingAllocator × Option (Nat × Nat × Nat) :=
  if requiredBytes > s.totalSize then (s, none)
  else
    let spaceAtEnd := s.totalSize - s.head
    let (offset, head, round) :=
      if requiredBytes ≤ spaceAtEnd then (s.head, s.head + requiredBytes, s.round)
      else (0, requiredBytes, s.round + 1)
    let allocId := s.nextAllocId
    ({ s with
        head := head
        round := round
        nextAllocId := allocId + 1
        allocations := s.allocations.insert allocId ⟨offset, requiredBytes, round⟩
        allocOrder := s.allocOrder ++ [allocId] },
      some (allocId, offset, round))

/-- `free`: the watermark moves past the regions that are freed in sequence. -/
def free (s : StagingAllocator) (allocId : Nat) : StagingAllocator :=
  if allocId ∉ s.allocations then s
  else
    let allocations := s.allocations.erase allocId
    let allocOrder := s.allocOrder.dropWhile fun i => decide (i ∉ allocations)
    let s := { s with allocations := allocations, allocOrder := allocOrder }
    if allocations = ∅ then { s with watermarkRound := s.round, watermarkTail := s.head }
    else
      match allocOrder.head?.bind fun i => allocations.lookup i with
      | none => s
      | some r => { s with watermarkRound := r.round, watermarkTail := r.offset }

def getWatermark (s : StagingAllocator) : ℕ ×ₗ ℕ := toLex (s.watermarkRound, s.watermarkTail)

/-! ## Section 2: Invariant -/

def frontier (s : StagingAllocator) : ℕ ×ₗ ℕ := toLex (s.round, s.head)

structure Inv (s : StagingAllocator) : Prop where
  /-- Ids are given out in order, and `alloc_order` keeps that order. -/
  sorted : s.allocOrder.Pairwise (· < ·)
  fresh : ∀ i ∈ s.allocOrder, i < s.nextAllocId
  listed : ∀ i ∈ s.allocations, i ∈ s.allocOrder
  head_le : s.head ≤ s.totalSize
  /-- Within a round a later region begins where the earlier one has ended. -/
  apart : ∀ {i j r r'}, s.allocations.lookup i = some r → s.allocations.lookup j = some r' → i < j →
    r.round < r'.round ∨ r.round = r'.round ∧ r.finish ≤ r'.offset
  behind : ∀ {i r}, s.allocations.lookup i = some r →
    r.round < s.round ∨ r.round = s.round ∧ r.finish ≤ s.head
  oldest : ∀ {i r}, s.allocations.lookup i = some r → s.getWatermark ≤ r.start
  reached : s.getWatermark ≤ s.frontier

theorem new_inv (totalSize : Nat) : (new totalSize).Inv := by
  have hnone : ∀ i r, (new totalSize).allocations.lookup i ≠ some r := by
    intro i r h
    simp [new] at h
  refine ⟨List.Pairwise.nil, ?_, ?_, Nat.zero_le _, ?_, ?_, ?_, le_rfl⟩
  · exact fun i hi => absurd hi not_mem_nil
  · exact fun i hi => absurd hi Finmap.notMem_empty
  · exact fun h => absurd h (hnone _ _)
  · exact fun h => absurd h (hnone _ _)
  · exact fun h => absurd h (hnone _ _)

variable {s : StagingAllocator}

theorem assign_cases (hhead : s.head ≤ s.totalSize) (requiredBytes : Nat) :
    s.assign requiredBytes = (s, none) ∨
      ∃ r : Region, r.size = requiredBytes ∧ r.finish ≤ s.totalSize ∧
        (r.round = s.round ∧ r.offset = s.head ∨
          r.round = s.round + 1 ∧ r.offset = 0 ∧ s.totalSize - s.head < requiredBytes) ∧
        s.assign requiredBytes =
          ({ s with
              head := r.finish
              round := r.round
              nextAllocId := s.nextAllocId + 1
              allocations := s.allocations.insert s.nextAllocId r
              allocOrder := s.allocOrder ++ [s.nextAllocId] },
            some (s.nextAllocId, r.offset, r.round)) := by
  by_cases hbig : requiredBytes > s.totalSize
  · exact .inl (by simp [assign, hbig])
  · right
    by_cases hfits : requiredBytes ≤ s.totalSize - s.head
    · refine ⟨⟨s.head, requiredBytes, s.round⟩, rfl, ?_, .inl ⟨rfl, rfl⟩, ?_⟩
      · simp only [Region.finish]
        omega
      · simp [assign, hbig, hfits, Region.finish]
    · refine ⟨⟨0, requiredBytes, s.round + 1⟩, rfl, ?_, .inr ⟨rfl, rfl, not_le.mp hfits⟩, ?_⟩
      · simp only [Region.finish]
        omega
      · simp [assign, hbig, hfits, Region.finish]

theorem start_le_iff {r r' : Region} : r.start ≤ r'.start ↔
    r.round < r'.round ∨ r.round = r'.round ∧ r.offset ≤ r'.offset := Prod.Lex.toLex_le_toLex

theorem start_le_frontier_iff {r : Region} : r.start ≤ s.frontier ↔
    r.round < s.round ∨ r.round = s.round ∧ r.offset ≤ s.head := Prod.Lex.toLex_le_toLex

/-! ## Section 3: Assignment -/

theorem lookup_assign {i : Nat} {r r' : Region}
    (h : (s.allocations.insert s.nextAllocId r).lookup i = some r') :
    i = s.nextAllocId ∧ r' = r ∨ i ≠ s.nextAllocId ∧ s.allocations.lookup i = some r' := by
  by_cases hi : i = s.nextAllocId
  · subst hi
    rw [Finmap.lookup_insert, Option.some.injEq] at h
    exact .inl ⟨rfl, h.symm⟩
  · rw [Finmap.lookup_insert_of_ne _ hi] at h
    exact .inr ⟨hi, h⟩

theorem Inv.lt_next (h : s.Inv) {i : Nat} {r : Region} (hi : s.allocations.lookup i = some r) :
    i < s.nextAllocId :=
  h.fresh i (h.listed i (Finmap.mem_iff.mpr ⟨r, hi⟩))

/-- A new region begins after all that are in use, and not before the watermark. -/
theorem Inv.assign (h : s.Inv) (requiredBytes : Nat) : (s.assign requiredBytes).1.Inv := by
  rcases assign_cases h.head_le requiredBytes with heq | ⟨r, _, hfinish, hplace, heq⟩
  · rw [heq]
    exact h
  have hfront : s.frontier ≤ r.start := by
    apply Prod.Lex.toLex_le_toLex.mpr
    rcases hplace with ⟨hround, hoff⟩ | ⟨hround, _⟩
    · exact .inr ⟨hround.symm, hoff.ge⟩
    · exact .inl (by simp only; omega)
  have hlater : ∀ {i r'}, s.allocations.lookup i = some r' →
      r'.round < r.round ∨ r'.round = r.round ∧ r'.finish ≤ r.offset := by
    intro i r' hi
    have := h.behind hi
    omega
  rw [heq]
  refine ⟨?_, ?_, ?_, hfinish, ?_, ?_, ?_, ?_⟩
  · apply pairwise_append.mpr
    refine ⟨h.sorted, pairwise_singleton _ _, ?_⟩
    intro i hi j hj
    rw [mem_singleton.mp hj]
    exact h.fresh i hi
  · intro i hi
    rcases mem_append.mp hi with hi | hi
    · exact Nat.lt_succ_of_lt (h.fresh i hi)
    · rw [mem_singleton.mp hi]
      exact Nat.lt_succ_self _
  · intro i hi
    rcases Finmap.mem_insert.mp hi with rfl | hi
    · exact mem_append_right _ (mem_singleton_self _)
    · exact mem_append_left _ (h.listed i hi)
  · intro i j r₁ r₂ hi hj hlt
    rcases lookup_assign hi with ⟨rfl, rfl⟩ | ⟨_, hi⟩
    · -- no id is above the new one
      rcases lookup_assign hj with ⟨rfl, _⟩ | ⟨_, hj⟩
      · exact absurd hlt (lt_irrefl _)
      · exact absurd (h.lt_next hj) (by omega)
    · rcases lookup_assign hj with ⟨_, rfl⟩ | ⟨_, hj⟩
      · exact hlater ‹_›
      · exact h.apart ‹_› hj hlt
  · intro i r₁ hi
    change r₁.round < r.round ∨ r₁.round = r.round ∧ r₁.finish ≤ r.finish
    rcases lookup_assign hi with ⟨_, rfl⟩ | ⟨_, hi⟩
    · exact .inr ⟨rfl, le_rfl⟩
    · have := hlater hi
      simp only [Region.finish] at this ⊢
      omega
  · intro i r₁ hi
    change s.getWatermark ≤ r₁.start
    rcases lookup_assign hi with ⟨_, rfl⟩ | ⟨_, hi⟩
    · exact h.reached.trans hfront
    · exact h.oldest hi
  · refine (h.reached.trans hfront).trans (Prod.Lex.toLex_le_toLex.mpr (.inr ⟨rfl, ?_⟩))
    exact Nat.le_add_right _ _

theorem watermark_assign (requiredBytes : Nat) :
    (s.assign requiredBytes).1.getWatermark = s.getWatermark := by
  unfold assign
  split
  · rfl
  · rfl

/-! ## Section 4: Release -/

/-- The list without the freed regions at its front. -/
def trim (order : List Nat) (rest : Finmap fun _ : Nat => Region) : List Nat :=
  order.dropWhile fun i => decide (i ∉ rest)

theorem mem_trim {order : List Nat} {rest : Finmap fun _ : Nat => Region} {i : Nat}
    (hi : i ∈ order) (hrest : i ∈ rest) : i ∈ trim order rest := by
  induction order with
  | nil => exact absurd hi not_mem_nil
  | cons x order ih =>
    by_cases hx : x ∈ rest
    · rw [trim, dropWhile_cons_of_neg (by simpa using hx)]
      exact hi
    · rw [trim, dropWhile_cons_of_pos (by simpa using hx)]
      rcases mem_cons.mp hi with rfl | hi
      · exact absurd hrest hx
      · exact ih hi

theorem first_trim {order : List Nat} {rest : Finmap fun _ : Nat => Region} {first : Nat}
    (h : (trim order rest).head? = some first) : first ∈ rest := by
  have hnot := head?_dropWhile_not (fun i => decide (i ∉ rest)) order
  rw [show (order.dropWhile fun i => decide (i ∉ rest)).head? = some first from h] at hnot
  simpa using hnot

theorem Inv.free_cases (h : s.Inv) {allocId : Nat} (hmem : allocId ∈ s.allocations) :
    let rest := s.allocations.erase allocId
    (rest = ∅ ∧ s.free allocId = { s with
      allocations := rest, allocOrder := trim s.allocOrder rest, watermarkRound := s.round
      watermarkTail := s.head }) ∨
    ∃ first r, (trim s.allocOrder rest).head? = some first ∧ rest.lookup first = some r ∧
      s.free allocId = { s with
        allocations := rest, allocOrder := trim s.allocOrder rest, watermarkRound := r.round
        watermarkTail := r.offset } := by
  intro rest
  by_cases hempty : rest = ∅
  · left
    refine ⟨hempty, ?_⟩
    unfold free
    rw [if_neg (not_not.mpr hmem)]
    exact if_pos hempty
  · right
    -- a region in use is still listed, so the list is not empty
    obtain ⟨i, hi⟩ : ∃ i, i ∈ rest := by
      by_contra hno
      push Not at hno
      apply hempty
      apply Finmap.ext_lookup
      intro i
      rw [Finmap.lookup_eq_none.mpr (hno i), Finmap.lookup_empty]
    have hin := mem_trim (h.listed i (Finmap.mem_erase.mp hi).2) hi
    cases hlist : trim s.allocOrder rest with
    | nil => exact absurd hin (by simp [hlist])
    | cons first tail =>
      have hfirst : (trim s.allocOrder rest).head? = some first := by rw [hlist]; rfl
      obtain ⟨r, hr⟩ := Finmap.mem_iff.mp (first_trim hfirst)
      refine ⟨first, r, rfl, hr, ?_⟩
      unfold free
      rw [if_neg (not_not.mpr hmem)]
      refine (if_neg hempty).trans ?_
      have hbind : ((s.allocOrder.dropWhile fun i => decide (i ∉ rest)).head?.bind
          fun i => rest.lookup i) = some r := by
        rw [show (s.allocOrder.dropWhile fun i => decide (i ∉ rest)).head? = some first from hfirst]
        exact hr
      simp only [rest] at hbind
      simp only [hbind, ← hlist]
      rfl

theorem lookup_of_erase {allocId i : Nat} {r : Region}
    (hi : (s.allocations.erase allocId).lookup i = some r) : s.allocations.lookup i = some r := by
  by_cases hne : i = allocId
  · subst hne
    rw [Finmap.lookup_erase] at hi
    cases hi
  · rwa [Finmap.lookup_erase_ne hne] at hi

/-- Freeing a region moves the watermark to the oldest that is left, or to the frontier. -/
theorem Inv.free (h : s.Inv) (allocId : Nat) :
    (s.free allocId).Inv ∧ s.getWatermark ≤ (s.free allocId).getWatermark := by
  by_cases hmem : allocId ∈ s.allocations
  swap
  · rw [StagingAllocator.free, if_pos hmem]
    exact ⟨h, le_rfl⟩
  have hold : ∀ {i r}, (s.allocations.erase allocId).lookup i = some r →
      s.allocations.lookup i = some r := lookup_of_erase
  have hsorted := h.sorted.sublist (dropWhile_sublist
    (fun i => decide (i ∉ s.allocations.erase allocId)))
  have hfresh : ∀ i ∈ trim s.allocOrder (s.allocations.erase allocId), i < s.nextAllocId :=
    fun i hi => h.fresh i (dropWhile_subset _ hi)
  have hlisted : ∀ i ∈ s.allocations.erase allocId,
      i ∈ trim s.allocOrder (s.allocations.erase allocId) :=
    fun i hi => mem_trim (h.listed i (Finmap.mem_erase.mp hi).2) hi
  rcases h.free_cases hmem with ⟨hempty, heq⟩ | ⟨first, r, hfirst, hr, heq⟩
  · rw [heq]
    refine ⟨⟨hsorted, hfresh, hlisted, h.head_le, ?_, ?_, ?_, le_rfl⟩, h.reached⟩
    · exact fun hi hj => h.apart (hold hi) (hold hj)
    · exact fun hi => h.behind (hold hi)
    · intro i r hi
      rw [hempty, Finmap.lookup_empty] at hi
      cases hi
  · rw [heq]
    refine ⟨⟨hsorted, hfresh, hlisted, h.head_le, ?_, ?_, ?_, ?_⟩, h.oldest (hold hr)⟩
    · exact fun hi hj => h.apart (hold hi) (hold hj)
    · exact fun hi => h.behind (hold hi)
    · -- the first of the list is the oldest
      intro i r' hi
      change r.start ≤ r'.start
      rw [start_le_iff]
      have hin := hlisted i (Finmap.mem_iff.mpr ⟨r', hi⟩)
      cases hlist : trim s.allocOrder (s.allocations.erase allocId) with
      | nil => simp [hlist] at hin
      | cons x tail =>
        rw [hlist, head?_cons, Option.some.injEq] at hfirst
        subst hfirst
        rw [hlist] at hin
        rcases mem_cons.mp hin with rfl | htail
        · rw [hr] at hi
          cases hi
          exact .inr ⟨rfl, le_rfl⟩
        · have hpair : (x :: tail).Pairwise (· < ·) := hlist ▸ hsorted
          have hlt := (pairwise_cons.mp hpair).1 i htail
          have := h.apart (hold hr) (hold hi) hlt
          simp only [Region.finish] at this
          omega
    · change r.start ≤ s.frontier
      rw [start_le_frontier_iff]
      have := h.behind (hold hr)
      simp only [Region.finish] at this
      omega

theorem nextAllocId_free (allocId : Nat) : (s.free allocId).nextAllocId = s.nextAllocId := by
  unfold free
  dsimp only
  repeat' split
  all_goals rfl

theorem lookup_free {allocId i : Nat} {r : Region}
    (hi : (s.free allocId).allocations.lookup i = some r) : s.allocations.lookup i = some r := by
  have hcases : (s.free allocId).allocations = s.allocations ∨
      (s.free allocId).allocations = s.allocations.erase allocId := by
    unfold free
    dsimp only
    repeat' split
    · exact .inl rfl
    all_goals exact .inr rfl
  rcases hcases with heq | heq
  · rwa [heq] at hi
  · rw [heq] at hi
    exact lookup_of_erase hi

/-! ## Section 5: Disjoint regions -/

theorem Inv.disjoint (h : s.Inv) {i j : Nat} {r r' : Region} (hi : s.allocations.lookup i = some r)
    (hj : s.allocations.lookup j = some r') (hlt : i < j)
    (hready : r'.round = 0 ∨ r'.round ≤ s.watermarkRound ∨
      r'.round = s.watermarkRound + 1 ∧ r'.finish ≤ s.watermarkTail) : r.Disjoint r' := by
  have hapart := h.apart hi hj hlt
  have hold : s.watermarkRound < r.round ∨ s.watermarkRound = r.round ∧
      s.watermarkTail ≤ r.offset :=
    Prod.Lex.toLex_le_toLex.mp (h.oldest hi)
  rintro b ⟨⟨h₁, h₂⟩, h₃, h₄⟩
  omega

end StagingAllocator

end Sglang.Disaggregation
