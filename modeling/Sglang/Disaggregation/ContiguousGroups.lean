import Mathlib.Data.List.SplitBy
import Mathlib.Tactic

/-!
# Groups of Contiguous Pages

Model of `group_concurrent_contiguous` (`disaggregation/common/utils.py`) and of the blocks that
`set_transfer_blocks` (`disaggregation/mooncake/conn.py`) makes of its groups.

- `groupConcurrentContiguous`: the page indices of both sides, split where either of them does not
  go up by one,
- `setTransferBlocks`: one block of bytes for each group,
- `groupConcurrentContiguous_eq`, `LongestRuns`: the groups are the longest runs that are contiguous
  on both sides,
- `transferBlocks_copy_pages`: the blocks copy each page to its page, byte by byte.

Indices are integers; differences of `int32` indices of pages do not overflow.
-/

namespace Sglang.Disaggregation.ContiguousGroups

/-! ## Section 1: Splitting at breaks -/

section Split

variable {α β : Type*}

/-- `np.split`, from `start` on: the pieces between the indices. -/
def npSplit (xs : List α) (start : Nat) : List Nat → List (List α)
  | [] => [xs.drop start]
  | b :: bs => (xs.drop start).take (b - start) :: npSplit xs b bs

/-- The indices whose element does not continue the one before. -/
def breaks (continues : α → α → Bool) : List α → List Nat
  | x :: y :: rest =>
    let later := (breaks continues (y :: rest)).map (· + 1)
    if continues x y then later else 1 :: later
  | _ => []

theorem npSplit_cons (x : α) (xs : List α) : ∀ (cuts : List Nat) (start : Nat),
    npSplit (x :: xs) (start + 1) (cuts.map (· + 1)) = npSplit xs start cuts
  | [], _ => rfl
  | b :: bs, start => by
    rw [List.map_cons, npSplit, npSplit, npSplit_cons x xs bs b, List.drop_succ_cons,
      Nat.add_sub_add_right]

theorem npSplit_zero_cons (x : α) (xs : List α) (cuts : List Nat) : ∃ p ps,
    npSplit xs 0 cuts = p :: ps ∧ npSplit (x :: xs) 0 (cuts.map (· + 1)) = (x :: p) :: ps := by
  cases cuts with
  | nil => exact ⟨xs, [], rfl, rfl⟩
  | cons b bs => exact ⟨_, _, rfl, by rw [List.map_cons, npSplit, npSplit_cons]; rfl⟩

theorem npSplit_map (f : α → β) (xs : List α) : ∀ (cuts : List Nat) (start : Nat),
    npSplit (xs.map f) start cuts = (npSplit xs start cuts).map (List.map f)
  | [], _ => by simp [npSplit]
  | b :: bs, start => by simp [npSplit, npSplit_map f xs bs b]

/-- The pieces between the breaks are the longest ones without a break. -/
theorem npSplit_breaks (continues : α → α → Bool) (x : α) (xs : List α) :
    npSplit (x :: xs) 0 (breaks continues (x :: xs)) = (x :: xs).splitBy continues := by
  suffices h : ∃ p ps, npSplit (x :: xs) 0 (breaks continues (x :: xs)) = (x :: p) :: ps ∧
      ((x :: p) :: ps).flatten = x :: xs ∧ [] ∉ (x :: p) :: ps ∧
      (∀ m ∈ (x :: p) :: ps, m.IsChain fun a b => continues a b) ∧
      ((x :: p) :: ps).IsChain fun a b => ∃ ha hb, continues (a.getLast ha) (b.head hb) = false by
    obtain ⟨p, ps, heq, hflat, hne, hin, hbetween⟩ := h
    rw [heq, ← hflat, List.splitBy_flatten hne hin hbetween]
  induction xs generalizing x with
  | nil => exact ⟨[], [], rfl, rfl, by simp, by simp, by simp⟩
  | cons y rest ih =>
    obtain ⟨p, ps, heq, hflat, hne, hin, hbetween⟩ := ih y
    obtain ⟨p', ps', heq', hcons⟩ := npSplit_zero_cons x (y :: rest) (breaks continues (y :: rest))
    rw [heq] at heq'
    obtain ⟨rfl, rfl⟩ := List.cons.inj heq'
    rw [breaks]
    by_cases hxy : continues x y
    · refine ⟨y :: p, ps, by rw [if_pos hxy]; exact hcons, by rw [← hflat]; rfl, ?_, ?_, ?_⟩
      · simpa using fun h => hne (List.mem_cons_of_mem _ h)
      · intro m hm
        rcases List.mem_cons.mp hm with rfl | hm
        · exact List.isChain_cons_cons.mpr ⟨hxy, hin _ (List.mem_cons_self ..)⟩
        · exact hin m (List.mem_cons_of_mem _ hm)
      · cases ps with
        | nil => exact List.isChain_singleton _
        | cons q qs =>
          obtain ⟨⟨ha, hb, hlast⟩, hqs⟩ := List.isChain_cons_cons.mp hbetween
          exact List.isChain_cons_cons.mpr ⟨⟨by simp, hb, by rwa [List.getLast_cons ha]⟩, hqs⟩
    · refine ⟨[], (y :: p) :: ps, ?_, by rw [← hflat]; rfl, ?_, ?_, ?_⟩
      · rw [if_neg hxy, npSplit, npSplit_cons x (y :: rest) _ 0, heq]
        rfl
      · simpa using fun h => hne (List.mem_cons_of_mem _ h)
      · intro m hm
        rcases List.mem_cons.mp hm with rfl | hm
        · exact List.isChain_singleton x
        · exact hin m hm
      · exact List.isChain_cons_cons.mpr ⟨⟨by simp, by simp, by simpa using hxy⟩, hbetween⟩

end Split

/-! ## Section 2: Groups -/

def npDiff (xs : List Int) : List Int := List.zipWith (fun a b => b - a) xs xs.tail

/-- `np.where(mask)[0]`: the indices of what is true. -/
def npWhere (mask : List Bool) : List Nat :=
    (List.range mask.length).filter fun i => mask.getD i false

/-- `brk` -/
def brk (srcIndices dstIndices : List Int) : List Nat :=
  (npWhere (List.zipWith (fun a b => a != 1 || b != 1) (npDiff srcIndices) (npDiff dstIndices))).map
    (· + 1)

/-- `group_concurrent_contiguous`; `none` is the `ValueError` of lengths that differ. -/
def groupConcurrentContiguous (srcIndices dstIndices : List Int) : Option
    (List (List Int) × List (List Int)) :=
  if srcIndices.length = 0 ∨ dstIndices.length = 0 then some ([], [])
  else if srcIndices.length ≠ dstIndices.length then none
  else
    some (npSplit srcIndices 0 (brk srcIndices dstIndices),
      npSplit dstIndices 0 (brk srcIndices dstIndices))

/-- `set_transfer_blocks`: source, destination and length of each block; `none` for an empty
group. -/
def setTransferBlocks (srcPtr dstPtr itemLen : Int) (groups : List (List Int) × List (List Int)) :
    Option (List (Int × Int × Int)) :=
  (groups.1.zip groups.2).mapM fun g => do
    let prefillIndex ← g.1.head?
    let decodeIndex ← g.2.head?
    some (srcPtr + prefillIndex * itemLen, dstPtr + decodeIndex * itemLen, itemLen * g.1.length)

theorem npWhere_cons (b : Bool) (mask : List Bool) :
    npWhere (b :: mask) = (if b then [0] else []) ++ (npWhere mask).map (· + 1) := by
  rw [npWhere, List.length_cons, List.range_succ_eq_map, List.filter_cons, List.filter_map]
  cases b <;> rfl

def continues (a b : Int × Int) : Bool := b.1 - a.1 = 1 && b.2 - a.2 = 1

theorem brk_eq : ∀ (srcIndices dstIndices : List Int), srcIndices.length = dstIndices.length →
    brk srcIndices dstIndices = breaks continues (srcIndices.zip dstIndices)
  | [], _, _ => rfl
  | [s], [d], _ => rfl
  | s :: s' :: ss, d :: d' :: ds, hlen => by
    have ih := brk_eq (s' :: ss) (d' :: ds) (Nat.succ.inj hlen)
    have hhead : (s' - s != 1 || d' - d != 1) = !continues (s, d) (s', d') := by
      simp [continues, Bool.not_and, bne, beq_eq_decide]
    rw [List.zip_cons_cons, List.zip_cons_cons, breaks, ← List.zip_cons_cons, ← ih]
    show (npWhere
      ((s' - s != 1 || d' - d != 1) :: List.zipWith _ (npDiff (s' :: ss)) (npDiff (d' :: ds)))).map
      _ = _
    rw [npWhere_cons, hhead, List.map_append]
    cases continues (s, d) (s', d') <;> rfl

/-- The longest runs of pairs of pages that are contiguous on both sides. -/
def runs (srcIndices dstIndices : List Int) : List (List (Int × Int)) :=
  (srcIndices.zip dstIndices).splitBy continues

theorem groupConcurrentContiguous_eq {srcIndices dstIndices : List Int}
    (hlen : srcIndices.length = dstIndices.length) :
    groupConcurrentContiguous srcIndices dstIndices = some
    ((runs srcIndices dstIndices).map (List.map Prod.fst),
      (runs srcIndices dstIndices).map (List.map Prod.snd)) := by
  unfold groupConcurrentContiguous runs
  cases srcIndices with
  | nil => simp
  | cons s ss =>
    cases dstIndices with
    | nil => simp at hlen
    | cons d ds =>
      have hfst : s :: ss = ((s :: ss).zip (d :: ds)).map Prod.fst :=
        (List.map_fst_zip hlen.le).symm
      have hsnd : d :: ds = ((s :: ss).zip (d :: ds)).map Prod.snd :=
        (List.map_snd_zip hlen.ge).symm
      have hsplit : npSplit ((s :: ss).zip (d :: ds)) 0 (brk (s :: ss) (d :: ds)) =
          ((s :: ss).zip (d :: ds)).splitBy continues := by
        rw [brk_eq _ _ hlen]
        exact npSplit_breaks continues (s, d) (ss.zip ds)
      rw [if_neg (by simp), if_neg (not_not.mpr hlen), ← hsplit, ← npSplit_map, ← npSplit_map,
        ← hfst, ← hsnd]

/-! ## Section 3: Blocks -/

/-- The bytes of a block: the address each is read from and the address it is written to. -/
def copied (block : Int × Int × Int) : List (Int × Int) :=
  (List.range block.2.2.toNat).map fun k : Nat => (block.1 + k, block.2.1 + k)

def pageBlock (srcPtr dstPtr : Int) (itemLen : Nat) (page : Int × Int) : Int × Int × Int :=
  (srcPtr + page.1 * itemLen, dstPtr + page.2 * itemLen, itemLen)

theorem copied_add (src dst : Int) (m n : Nat) :
    copied (src, dst, ((m + n : Nat) : Int)) = copied (src, dst, m) ++ copied
    (src + m, dst + m, n) := by
  simp only [copied, Int.toNat_natCast, List.range_add, List.map_append, List.map_map]
  refine congrArg _ (List.map_congr_left fun k _ => ?_)
  simp only [Function.comp_apply, Nat.cast_add]
  ring_nf

theorem copied_run (srcPtr dstPtr : Int) (itemLen : Nat) : ∀ {page : Int × Int}
    {rest : List (Int × Int)}, (page :: rest).IsChain (fun a b => continues a b) →
      copied (srcPtr + page.1 * itemLen, dstPtr + page.2 * itemLen,
        (itemLen * (rest.length + 1) : Nat)) =
          (page :: rest).flatMap fun p => copied (pageBlock srcPtr dstPtr itemLen p) := by
  intro page rest
  induction rest generalizing page with
  | nil => simp [pageBlock]
  | cons next rest ih =>
    intro h
    obtain ⟨hnext, hrest⟩ := List.isChain_cons_cons.mp h
    simp only [continues, Bool.and_eq_true, decide_eq_true_eq] at hnext
    rw [List.flatMap_cons, ← ih hrest, List.length_cons, Nat.mul_succ, Nat.add_comm, copied_add,
      pageBlock]
    refine congrArg _ (congrArg copied (Prod.ext ?_ (Prod.ext ?_ rfl)))
    · show srcPtr + page.1 * itemLen + itemLen = srcPtr + next.1 * itemLen
      rw [show next.1 = page.1 + 1 by omega]
      ring
    · show dstPtr + page.2 * itemLen + itemLen = dstPtr + next.2 * itemLen
      rw [show next.2 = page.2 + 1 by omega]
      ring

/-- Groups of pairs of pages: runs that are contiguous on both sides, none of which could go on. -/
structure LongestRuns (pages : List (Int × Int)) (groups : List (List (Int × Int))) : Prop where
  all : groups.flatten = pages
  nonempty : ∀ g ∈ groups, g ≠ []
  contiguous : ∀ g ∈ groups, g.IsChain fun a b => continues a b
  cut : groups.IsChain fun g h => ∃ hg hh, continues (g.getLast hg) (h.head hh) = false

theorem longestRuns_runs (srcIndices dstIndices : List Int) :
    LongestRuns (srcIndices.zip dstIndices) (runs srcIndices dstIndices) where
  all := List.flatten_splitBy ..
  nonempty := fun _ hg => List.ne_nil_of_mem_splitBy hg
  contiguous := fun _ hg => List.isChain_of_mem_splitBy hg
  cut := List.isChain_getLast_head_splitBy ..

/-- The groups are the longest runs, and their blocks copy each page of the one side to its page of
the other, in order, and nothing else. -/
theorem transferBlocks_copy_pages (srcPtr dstPtr : Int) (itemLen : Nat)
    {srcIndices dstIndices : List Int} (hlen : srcIndices.length = dstIndices.length) :
    ∃ groups blocks, groupConcurrentContiguous srcIndices dstIndices = some groups ∧
      groups = ((runs srcIndices dstIndices).map (List.map Prod.fst),
        (runs srcIndices dstIndices).map (List.map Prod.snd)) ∧
      LongestRuns (srcIndices.zip dstIndices) (runs srcIndices dstIndices) ∧
      setTransferBlocks srcPtr dstPtr itemLen groups = some blocks ∧
      blocks.length = (runs srcIndices dstIndices).length ∧
      blocks.flatMap copied =
        (srcIndices.zip dstIndices).flatMap fun p => copied
        (pageBlock srcPtr dstPtr itemLen p) := by
  have hruns := longestRuns_runs srcIndices dstIndices
  suffices h : ∀ gs : List (List (Int × Int)), (∀ g ∈ gs, g ≠ []) →
    (∀ g ∈ gs, g.IsChain fun a b => continues a b) → ∃ blocks,
    setTransferBlocks srcPtr dstPtr itemLen (gs.map (List.map Prod.fst),
      gs.map (List.map Prod.snd)) = some blocks ∧ blocks.length = gs.length ∧
      blocks.flatMap copied = gs.flatten.flatMap fun p =>
        copied (pageBlock srcPtr dstPtr itemLen p) by
    obtain ⟨blocks, hblocks⟩ := h _ hruns.nonempty hruns.contiguous
    rw [hruns.all] at hblocks
    exact ⟨_, blocks, groupConcurrentContiguous_eq hlen, rfl, hruns, hblocks⟩
  intro gs
  induction gs with
  | nil => exact fun _ _ => ⟨[], rfl, rfl, rfl⟩
  | cons g gs ih =>
    intro hne hchain
    obtain ⟨page, rest, rfl⟩ := List.exists_cons_of_ne_nil (hne g (List.mem_cons_self ..))
    obtain ⟨blocks, hblocks, hcount, hcopies⟩ := ih (fun g hg => hne g (List.mem_cons_of_mem _ hg))
      fun g hg => hchain g (List.mem_cons_of_mem _ hg)
    refine ⟨(srcPtr + page.1 * itemLen, dstPtr + page.2 * itemLen,
      (itemLen * (rest.length + 1) : Nat)) :: blocks, ?_, by simp [hcount], ?_⟩
    · unfold setTransferBlocks at hblocks ⊢
      simp only [List.map_cons, List.zip_cons_cons, List.mapM_cons, hblocks]
      simp
    · rw [List.flatMap_cons, List.flatten_cons, List.flatMap_append, hcopies,
        copied_run srcPtr dstPtr itemLen (hchain _ (List.mem_cons_self ..))]

/-- Pages 3 and 4 go to pages 7 and 8 as one block, and page 5 to page 2 as another. -/
theorem transferBlocks_copy_pages_two : ∃ groups blocks,
    groupConcurrentContiguous [3, 4, 5] [7, 8, 2] = some groups ∧
      groups = ((runs [3, 4, 5] [7, 8, 2]).map (List.map Prod.fst),
        (runs [3, 4, 5] [7, 8, 2]).map (List.map Prod.snd)) ∧
      LongestRuns ([3, 4, 5].zip [7, 8, 2]) (runs [3, 4, 5] [7, 8, 2]) ∧
      setTransferBlocks 100 500 4 groups = some blocks ∧ blocks.length =
        (runs [3, 4, 5] [7, 8, 2]).length ∧
      blocks.flatMap copied =
        ([3, 4, 5].zip [7, 8, 2]).flatMap fun p => copied (pageBlock 100 500 4 p) :=
  transferBlocks_copy_pages 100 500 4 rfl

end Sglang.Disaggregation.ContiguousGroups
