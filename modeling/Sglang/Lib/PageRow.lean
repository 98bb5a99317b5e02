import Mathlib.Data.List.Count
import Mathlib.Data.List.Range
import Mathlib.Data.List.Dedup
import Mathlib.Data.Multiset.Count
import Mathlib.Tactic

/-!
# Rows of Slots on Pages

A pool is cut into pages of `ps` slots; page `p` holds the slots `p * ps, …, p * ps + ps - 1`. A
row is a list of slots that fills its pages in order, the last one possibly in part.

- `expand`: all slots of a list of pages,
- `RowPages`: a row with the pages under it,
- `count_expand`: a slot is counted as often as its page,
- `RowPages.pages_perm`: the pages of a row can be read off its slots.
-/

namespace Sglang.Lib

open List

/-! ## Section 1: Slots of pages -/

/-- The slot at position `j` of a row over the pages. -/
def slotAt (ps : Nat) (pgs : List Nat) (j : Nat) : Nat := pgs.getD (j / ps) 0 * ps + j % ps

/-- The first `n` slots over the pages. -/
def rowOf (ps : Nat) (pgs : List Nat) (n : Nat) : List Nat := (List.range n).map (slotAt ps pgs)

def expand (ps : Nat) (pgs : List Nat) : List Nat := rowOf ps pgs (pgs.length * ps)

/-- Number of pages under `n` slots. -/
def pageCount (ps n : Nat) : Nat := (n + ps - 1) / ps

variable {ps : Nat} {pgs qs : List Nat}

@[simp] theorem rowOf_length (n : Nat) : (rowOf ps pgs n).length = n := by simp [rowOf]

@[simp] theorem expand_length : (expand ps pgs).length = pgs.length * ps := by simp [expand]

@[simp] theorem rowOf_zero : rowOf ps pgs 0 = [] := rfl

@[simp] theorem expand_nil : expand ps [] = [] := by simp [expand]

theorem rowOf_getElem {n j : Nat} (h : j < n) :
    (rowOf ps pgs n)[j]? = some (slotAt ps pgs j) := by
  simp [rowOf, h]

theorem slotAt_append_left {j : Nat} (h : j / ps < pgs.length) :
    slotAt ps (pgs ++ qs) j = slotAt ps pgs j := by
  rw [slotAt, slotAt, getD_eq_getElem?_getD, getElem?_append_left h,
    getD_eq_getElem?_getD]

theorem slotAt_append_right (hps : 0 < ps) (j : Nat) :
    slotAt ps (pgs ++ qs) (pgs.length * ps + j) = slotAt ps qs j := by
  have hdiv : (pgs.length * ps + j) / ps = pgs.length + j / ps := by
    rw [Nat.mul_comm, Nat.mul_add_div hps]
  have hmod : (pgs.length * ps + j) % ps = j % ps := by
    rw [Nat.mul_comm, Nat.mul_add_mod]
  rw [slotAt, slotAt, hdiv, hmod, getD_eq_getElem?_getD,
    getElem?_append_right (Nat.le_add_right _ _), Nat.add_sub_cancel_left,
    getD_eq_getElem?_getD]

theorem rowOf_add (m n : Nat) :
    rowOf ps pgs (m + n) = rowOf ps pgs m ++
      (List.range n).map (fun j => slotAt ps pgs (m + j)) := by
  simp [rowOf, range_add]

theorem rowOf_take (m n : Nat) : (rowOf ps pgs n).take m = rowOf ps pgs (min m n) := by
  simp [rowOf, ← map_take, take_range]

theorem rowOf_append_left (hps : 0 < ps) {n : Nat} (h : n ≤ pgs.length * ps) :
    rowOf ps (pgs ++ qs) n = rowOf ps pgs n := by
  refine map_congr_left fun j hj => slotAt_append_left ?_
  rw [Nat.div_lt_iff_lt_mul hps]
  exact Nat.lt_of_lt_of_le (mem_range.mp hj) h

theorem rowOf_append_right (hps : 0 < ps) (n : Nat) :
    rowOf ps (pgs ++ qs) (pgs.length * ps + n) = expand ps pgs ++ rowOf ps qs n := by
  rw [rowOf_add, rowOf_append_left hps le_rfl]
  refine congrArg _ (map_congr_left fun j _ => ?_)
  exact slotAt_append_right hps j

theorem expand_append (hps : 0 < ps) : expand ps (pgs ++ qs) = expand ps pgs ++ expand ps qs := by
  rw [expand, length_append, Nat.add_mul, rowOf_append_right hps]
  rfl

theorem expand_singleton (p : Nat) : expand ps [p] = List.range' (p * ps) ps := by
  simp only [expand, length_singleton, Nat.one_mul, rowOf]
  rw [range'_eq_map_range]
  refine map_congr_left fun j hj => ?_
  have hj := mem_range.mp hj
  simp [slotAt, Nat.div_eq_of_lt hj, Nat.mod_eq_of_lt hj]

theorem expand_cons (hps : 0 < ps) (p : Nat) :
    expand ps (p :: pgs) = List.range' (p * ps) ps ++ expand ps pgs := by
  rw [← singleton_append, expand_append hps, expand_singleton]

theorem expand_one : expand 1 pgs = pgs := by
  induction pgs with
  | nil => rfl
  | cons p pgs ih =>
    rw [expand_cons Nat.one_pos, ih]
    simp

theorem count_range' (start len x : Nat) :
    (List.range' start len).count x = if start ≤ x ∧ x < start + len then 1 else 0 := by
  rw [List.Nodup.count nodup_range']
  simp [mem_range'_1]

theorem count_expand (hps : 0 < ps) (x : Nat) : (expand ps pgs).count x = pgs.count (x / ps) := by
  induction pgs with
  | nil => simp
  | cons p pgs ih =>
    have hiff : (p * ps ≤ x ∧ x < p * ps + ps) ↔ p = x / ps := by
      rw [eq_comm, Nat.div_eq_iff hps]
      constructor
      · rintro ⟨h₁, h₂⟩
        exact ⟨h₁, by omega⟩
      · rintro ⟨h₁, h₂⟩
        exact ⟨h₁, by omega⟩
    rw [expand_cons hps, count_append, ih, count_range', count_cons, Nat.add_comm]
    simp only [hiff, beq_iff_eq]

theorem mem_expand (hps : 0 < ps) {x : Nat} : x ∈ expand ps pgs ↔ x / ps ∈ pgs := by
  rw [← count_pos_iff, count_expand hps, count_pos_iff]

theorem nodup_expand (hps : 0 < ps) : (expand ps pgs).Nodup ↔ pgs.Nodup := by
  rw [nodup_iff_count_le_one, nodup_iff_count_le_one]
  constructor
  · intro h p
    have := h (p * ps)
    rwa [count_expand hps, Nat.mul_div_cancel _ hps] at this
  · intro h x
    rw [count_expand hps]
    exact h _

theorem expand_perm (hps : 0 < ps) (h : pgs.Perm qs) : (expand ps pgs).Perm (expand ps qs) := by
  rw [perm_iff_count]
  intro x
  rw [count_expand hps, count_expand hps, h.count_eq]

/-! ## Section 2: Rows -/

/-- A row and the pages under it. -/
structure RowPages (ps : Nat) (row pgs : List Nat) : Prop where
  row_eq : row = rowOf ps pgs row.length
  count : pgs.length = pageCount ps row.length

/-- The slots of the last page of a row that the row does not use. -/
def padding (ps : Nat) (row : List Nat) : List Nat :=
  match row.getLast? with
  | none => []
  | some l => List.range' (l + 1) (pageCount ps row.length * ps - row.length)

theorem le_pageCount_mul (hps : 0 < ps) (n : Nat) : n ≤ pageCount ps n * ps := by
  have := Nat.lt_div_mul_add hps (a := n + ps - 1)
  unfold pageCount
  omega

theorem pageCount_mul_lt (hps : 0 < ps) (n : Nat) : pageCount ps n * ps < n + ps := by
  have := Nat.div_mul_le_self (n + ps - 1) ps
  unfold pageCount
  omega

theorem pageCount_mul (hps : 0 < ps) (k : Nat) : pageCount ps (k * ps) = k := by
  rw [pageCount, Nat.add_sub_assoc hps, Nat.mul_comm, Nat.mul_add_div hps,
    Nat.div_eq_of_lt (by omega), Nat.add_zero]

theorem pageCount_mul_add (hps : 0 < ps) (k n : Nat) :
    pageCount ps (k * ps + n) = k + pageCount ps n := by
  rw [pageCount, show k * ps + n + ps - 1 = ps * k + (n + ps - 1) by rw [Nat.mul_comm]; omega,
    Nat.mul_add_div hps]
  rfl

theorem le_pageCount {k n : Nat} (hps : 0 < ps) (h : k * ps ≤ n) : k ≤ pageCount ps n := by
  have := le_pageCount_mul hps n
  exact Nat.le_of_mul_le_mul_right (h.trans this) hps

namespace RowPages

variable {row : List Nat}

theorem nil : RowPages ps [] [] := by
  refine ⟨rfl, ?_⟩
  simp only [length_nil, pageCount, Nat.zero_add]
  rcases Nat.eq_zero_or_pos ps with rfl | h
  · rfl
  · exact (Nat.div_eq_of_lt (by omega)).symm

theorem of_expand (hps : 0 < ps) : RowPages ps (expand ps pgs) pgs := by
  refine ⟨by simp [expand], ?_⟩
  rw [expand_length, pageCount_mul hps]

theorem length_le (hps : 0 < ps) (h : RowPages ps row pgs) : row.length ≤ pgs.length * ps := by
  rw [h.count]
  exact le_pageCount_mul hps _

theorem eq_take (hps : 0 < ps) (h : RowPages ps row pgs) :
    row = (expand ps pgs).take row.length := by
  conv_lhs => rw [h.row_eq]
  rw [expand, rowOf_take, min_eq_left (h.length_le hps)]

theorem eq_expand (hps : 0 < ps) (h : RowPages ps row pgs) (hdvd : ps ∣ row.length) :
    row = expand ps pgs := by
  obtain ⟨k, hk⟩ := hdvd
  have hcount := h.count
  rw [hk, Nat.mul_comm, pageCount_mul hps] at hcount
  rw [expand, hcount, Nat.mul_comm, ← hk]
  exact h.row_eq

theorem take (hps : 0 < ps) (h : RowPages ps row pgs) {k : Nat} (hk : k * ps ≤ row.length) :
    row.take (k * ps) = expand ps (pgs.take k) := by
  have hle : k ≤ pgs.length := by
    rw [h.count]
    exact le_pageCount hps hk
  conv_lhs => rw [h.row_eq, rowOf_take, min_eq_left hk]
  rw [expand, length_take, min_eq_left hle]
  conv_lhs => rw [← take_append_drop k pgs]
  exact rowOf_append_left hps (by rw [length_take, min_eq_left hle])

theorem drop (hps : 0 < ps) (h : RowPages ps row pgs) {k : Nat} (hk : k * ps ≤ row.length) :
    RowPages ps (row.drop (k * ps)) (pgs.drop k) := by
  have hle : k ≤ pgs.length := by
    rw [h.count]
    exact le_pageCount hps hk
  have hsum : row.length = k * ps + (row.length - k * ps) := by omega
  refine ⟨?_, ?_⟩
  · have hrow := h.row_eq
    rw [hsum] at hrow
    conv at hrow => rhs; rw [← take_append_drop k pgs]
    have hlen : (pgs.take k).length = k := by rw [length_take, min_eq_left hle]
    have happ : rowOf ps (pgs.take k ++ pgs.drop k)
      ((pgs.take k).length * ps + (row.length - k * ps)) = expand ps (pgs.take k) ++
      rowOf ps (pgs.drop k) (row.length - k * ps) :=
      rowOf_append_right hps _
    rw [hlen] at happ
    rw [happ] at hrow
    have hdrop := congrArg (List.drop (k * ps)) hrow
    rw [drop_left' (by rw [expand_length, hlen])] at hdrop
    rw [hdrop, rowOf_length]
  · have hcount := h.count
    rw [hsum, pageCount_mul_add hps] at hcount
    rw [length_drop, length_drop, hcount]
    omega

theorem append (hps : 0 < ps) (h : RowPages ps row qs) :
    RowPages ps (expand ps pgs ++ row) (pgs ++ qs) := by
  refine ⟨?_, ?_⟩
  · rw [length_append, expand_length, rowOf_append_right hps, ← h.row_eq]
  · rw [length_append, length_append, expand_length, pageCount_mul_add hps, h.count]

theorem shorten (hps : 0 < ps) (h : RowPages ps row pgs) {n : Nat} (hn : n ≤ row.length) :
    RowPages ps (row.take n) (pgs.take (pageCount ps n)) := by
  have hlen : (row.take n).length = n := by rw [length_take, min_eq_left hn]
  have hle : pageCount ps n ≤ pgs.length := by
    rw [h.count]
    exact Nat.div_le_div_right (by omega)
  refine ⟨?_, ?_⟩
  · rw [hlen]
    conv_lhs => rw [h.row_eq, rowOf_take, min_eq_left hn, ← take_append_drop (pageCount ps n) pgs]
    refine rowOf_append_left hps ?_
    rw [length_take, min_eq_left hle]
    exact le_pageCount_mul hps n
  · rw [hlen, length_take, min_eq_left hle]

theorem getLast (h : RowPages ps row pgs) (hne : row ≠ []) :
    row.getLast? = some (slotAt ps pgs (row.length - 1)) := by
  have hpos := length_pos_of_ne_nil hne
  conv_lhs => rw [h.row_eq]
  rw [getLast?_eq_getElem?, rowOf_length]
  exact rowOf_getElem (by omega)

theorem slotAt_next (hps : 0 < ps) {n j : Nat} (hn : 0 < n) (hj : n + j < pageCount ps n * ps) :
    slotAt ps pgs (n + j) = slotAt ps pgs (n - 1) + 1 + j := by
  have hlt := pageCount_mul_lt hps n
  -- both positions lie on the page of the last slot
  obtain ⟨q, hq⟩ : ∃ q, pageCount ps n = q + 1 := by
    refine ⟨pageCount ps n - 1, ?_⟩
    have : 0 < pageCount ps n := by
      by_contra h
      have hz : pageCount ps n = 0 := by omega
      rw [hz] at hj
      omega
    omega
  rw [hq, Nat.add_mul, Nat.one_mul] at hj hlt
  have hdiv : ∀ m, q * ps ≤ m → m < q * ps + ps → m / ps = q ∧ m % ps = m - q * ps := by
    intro m h₁ h₂
    have : m / ps = q := by
      rw [Nat.div_eq_iff hps]
      omega
    refine ⟨this, ?_⟩
    have := Nat.div_add_mod m ps
    rw [‹m / ps = q›, Nat.mul_comm] at this
    omega
  obtain ⟨h₁, h₂⟩ := hdiv (n + j) (by omega) (by omega)
  obtain ⟨h₃, h₄⟩ := hdiv (n - 1) (by omega) (by omega)
  rw [slotAt, slotAt, h₁, h₂, h₃, h₄]
  omega

theorem append_padding (hps : 0 < ps) (h : RowPages ps row pgs) :
    row ++ padding ps row = expand ps pgs := by
  by_cases hne : row = []
  · subst hne
    have hcount : pgs = [] := by
      rw [← length_eq_zero_iff, h.count]
      exact nil.count.symm
    rw [hcount]
    simp [padding]
  · have hpos := length_pos_of_ne_nil hne
    have hle := le_pageCount_mul hps row.length
    rw [padding, h.getLast hne]
    dsimp only
    rw [expand, h.count, show pageCount ps row.length * ps =
      row.length + (pageCount ps row.length * ps - row.length) by omega, rowOf_add, ← h.row_eq]
    refine congrArg _ ?_
    rw [Nat.add_sub_cancel_left, range'_eq_map_range]
    refine map_congr_left fun j hj => ?_
    have hj := mem_range.mp hj
    exact (slotAt_next hps hpos (by omega)).symm

theorem drop_padding (hps : 0 < ps) (h : RowPages ps row pgs) {k : Nat}
    (hk : k * ps ≤ row.length) :
    row.drop (k * ps) ++ padding ps row = expand ps (pgs.drop k) := by
  have hle : k ≤ pgs.length := by
    rw [h.count]
    exact le_pageCount hps hk
  have happ := h.append_padding hps
  conv at happ => rhs; rw [← take_append_drop k pgs, expand_append hps]
  have hdrop := congrArg (List.drop (k * ps)) happ
  rwa [drop_append_of_le_length hk,
    drop_left' (by rw [expand_length, length_take, min_eq_left hle])] at hdrop

theorem pages_perm (hps : 0 < ps) (h : RowPages ps row pgs) (hnodup : pgs.Nodup) :
    ((row.map (· / ps)).dedup).Perm pgs := by
  refine (perm_ext_iff_of_nodup (nodup_dedup _) hnodup).mpr fun p => ?_
  rw [mem_dedup, mem_map]
  constructor
  · rintro ⟨x, hx, rfl⟩
    rw [h.eq_take hps] at hx
    exact (mem_expand hps).mp (mem_of_mem_take hx)
  · intro hp
    obtain ⟨k, hk, rfl⟩ := getElem_of_mem hp
    -- the first slot of page `k`
    have hlt : k * ps < row.length := by
      have h₁ := pageCount_mul_lt hps row.length
      have h₂ : (k + 1) * ps ≤ pgs.length * ps := Nat.mul_le_mul_right ps hk
      rw [h.count, Nat.add_mul, Nat.one_mul] at h₂
      omega
    refine ⟨slotAt ps pgs (k * ps), ?_, ?_⟩
    · rw [h.row_eq]
      exact mem_map_of_mem (mem_range.mpr hlt)
    · rw [slotAt, Nat.mul_div_cancel _ hps, Nat.mul_mod_left, Nat.add_zero,
        Nat.mul_div_cancel _ hps]
      simp [hk]

end RowPages

end Sglang.Lib
