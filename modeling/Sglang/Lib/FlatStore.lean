import Mathlib

/-!
# Stores into a Flat Memory

Programs that each fill one segment of a flat memory, in any order.

- `store`, `storeMasked`: consecutive cells, all or those under a mask,
- `store_append`, `foldl_blocks`: stores side by side are one store,
- `map_range_foldl`: segments laid side by side, filled in any order, hold the concatenation.
-/

namespace Sglang.Lib

open List

variable {α : Type*}

/-! ## Section 1: One store -/

/-- Fill `n` cells from `base` on. -/
def store (out : Nat → α) (base n : Nat) (vals : Nat → α) : Nat → α := fun x =>
  if base ≤ x ∧ x < base + n then vals (x - base) else out x

/-- Fill those of the `lanes` cells from `base` on that the mask names. -/
def storeMasked (out : Nat → α) (base lanes : Nat) (mask : Nat → Bool) (vals : Nat → α) : Nat → α :=
  fun x => if base ≤ x ∧ x < base + lanes ∧ mask (x - base) then vals (x - base) else out x

variable {out : Nat → α} {base n m : Nat} {f g : Nat → α}

theorem store_zero : store out base 0 f = out := by
  funext x
  unfold store
  rw [if_neg (by omega)]

theorem store_congr (h : ∀ j < n, f j = g j) : store out base n f = store out base n g := by
  funext x
  unfold store
  split
  · exact h _ (by omega)
  · rfl

theorem store_append : store (store out base n f) (base + n) m g =
    store out base (n + m) fun j => if j < n then f j else g (j - n) := by
  funext x
  unfold store
  by_cases hfirst : base ≤ x ∧ x < base + n
  · rw [if_neg (by omega), if_pos hfirst, if_pos (by omega)]
    show f (x - base) = if x - base < n then f (x - base) else g (x - base - n)
    rw [if_pos (by omega)]
  · by_cases hsecond : base + n ≤ x ∧ x < base + n + m
    · rw [if_pos hsecond, if_pos (by omega)]
      show g (x - (base + n)) = if x - base < n then f (x - base) else g (x - base - n)
      rw [if_neg (by omega), Nat.sub_sub]
    · rw [if_neg hsecond, if_neg hfirst, if_neg (by omega)]

theorem map_range_append (n m : Nat) (f g : Nat → α) :
    (List.range n).map f ++ (List.range m).map g =
      (List.range (n + m)).map fun j => if j < n then f j else g (j - n) := by
  rw [range_add, map_append, map_map]
  congr 1
  · apply map_congr_left
    intro j hj
    rw [if_pos (mem_range.mp hj)]
  · apply map_congr_left
    intro j _
    rw [Function.comp_apply, if_neg (by omega), Nat.add_sub_cancel_left]

theorem storeMasked_lt {lanes : Nat} (h : n ≤ lanes) :
    storeMasked out base lanes (fun o => decide (o < n)) f = store out base n f := by
  funext x
  unfold storeMasked store
  simp only [decide_eq_true_eq]
  have hiff : (base ≤ x ∧ x < base + lanes ∧ x - base < n) ↔ base ≤ x ∧ x < base + n := by omega
  rw [if_congr hiff rfl rfl]

/-- A loop over blocks of `b` lanes whose mask ends after `n` cells. -/
theorem foldl_blocks {b : Nat} (vals : Nat → α) : ∀ {k : Nat},
    (List.range k).foldl
    (fun out i => storeMasked out (base + i * b) b (fun o => decide (i * b + o < n))
        fun o => vals (i * b + o)) out =
      store out base (min (k * b) n) vals := by
  intro k
  induction k with
  | zero =>
    rw [Nat.zero_mul, Nat.zero_min, store_zero]
    rfl
  | succ k ih =>
    rw [range_succ, foldl_append, ih]
    simp only [foldl_cons, foldl_nil]
    funext x
    unfold storeMasked store
    simp only [decide_eq_true_eq, Nat.add_mul, Nat.one_mul]
    by_cases hblock : base + k * b ≤ x ∧ x < base + k * b + b ∧ k * b + (x - (base + k * b)) < n
    · rw [if_pos hblock, if_pos (by omega)]
      congr 1
      omega
    · rw [if_neg hblock]
      have hiff : (base ≤ x ∧ x < base + min (k * b) n) ↔
          base ≤ x ∧ x < base + min (k * b + b) n := by
        omega
      rw [if_congr hiff rfl rfl]

/-! ## Section 2: Segments side by side -/

/-- Where the segment of the `i`-th list starts. -/
def startOf (ls : List (List α)) (i : Nat) : Nat := (ls.take i).flatten.length

theorem startOf_cons (l : List α) (ls : List (List α)) (i : Nat) :
    startOf (l :: ls) (i + 1) = l.length + startOf ls i := by
  simp [startOf]

theorem startOf_succ {ls : List (List α)} {i : Nat} {l : List α} (h : ls[i]? = some l) :
    startOf ls (i + 1) = startOf ls i + l.length := by
  unfold startOf
  rw [take_add_one, h]
  simp

theorem startOf_mono (ls : List (List α)) : Monotone (startOf ls) := by
  intro i j hij
  unfold startOf
  apply List.Sublist.length_le
  apply List.Sublist.flatten
  exact take_sublist_take_left hij

theorem segment_unique {ls : List (List α)} {i j x : Nat} {l l' : List α} (hi : ls[i]? = some l)
    (hj : ls[j]? = some l') (hx : startOf ls i ≤ x ∧ x < startOf ls i + l.length)
    (hx' : startOf ls j ≤ x ∧ x < startOf ls j + l'.length) : i = j := by
  rcases Nat.lt_trichotomy i j with hlt | heq | hgt
  · have := startOf_mono ls (Nat.succ_le_of_lt hlt)
    rw [Nat.succ_eq_add_one, startOf_succ hi] at this
    omega
  · exact heq
  · have := startOf_mono ls (Nat.succ_le_of_lt hgt)
    rw [Nat.succ_eq_add_one, startOf_succ hj] at this
    omega

theorem flatten_getElem? {ls : List (List α)} {i : Nat} {l : List α} (h : ls[i]? = some l) {j : Nat}
    (hj : j < l.length) : ls.flatten[startOf ls i + j]? = l[j]? := by
  obtain ⟨hi, hl⟩ := List.getElem?_eq_some_iff.mp h
  have hsplit : ls.flatten = (ls.take i).flatten ++ (l ++ (ls.drop (i + 1)).flatten) := by
    conv_lhs => rw [← take_append_drop i ls, drop_eq_getElem_cons hi, hl]
    simp
  rw [hsplit, startOf, getElem?_append_right (Nat.le_add_right _ _), Nat.add_sub_cancel_left,
    getElem?_append_left hj]

theorem exists_segment : ∀ {ls : List (List α)} {x : Nat}, x < ls.flatten.length →
    ∃ i l, ls[i]? = some l ∧ startOf ls i ≤ x ∧ x < startOf ls i + l.length := by
  intro ls
  induction ls with
  | nil => exact fun h => absurd h (Nat.not_lt_zero _)
  | cons l ls ih =>
    intro x hx
    rw [flatten_cons, length_append] at hx
    rcases Nat.lt_or_ge x l.length with hlt | hge
    · exact ⟨0, l, rfl, Nat.zero_le _, by simpa [startOf] using hlt⟩
    · obtain ⟨i, l', hget, hle, hlt⟩ := ih (show x - l.length < ls.flatten.length by omega)
      have hstart := startOf_cons l ls i
      exact ⟨i + 1, l', by rw [getElem?_cons_succ, hget], by omega, by omega⟩

variable {ls : List (List α)} {program : (Nat → α) → Nat → Nat → α}

/-- A cell keeps the value it has from its own program, whatever runs besides. -/
theorem foldl_segment {order : List Nat} {i x : Nat} {l : List α} (hi : ls[i]? = some l)
    (hx : startOf ls i ≤ x ∧ x < startOf ls i + l.length)
    (hprogram : ∀ k ∈ order, ∃ lk vals, ls[k]? = some lk ∧
      (∀ j < lk.length, lk[j]? = some (vals j)) ∧
      ∀ out, program out k = store out (startOf ls k) lk.length vals) :
    ∀ out : Nat → α, i ∈ order ∨ some (out x) = l[x - startOf ls i]? →
      some (order.foldl program out x) = l[x - startOf ls i]? := by
  induction order with
  | nil =>
    intro out h
    exact h.resolve_left (not_mem_nil)
  | cons k order ih =>
    intro out h
    rw [foldl_cons]
    apply ih fun k hk => hprogram k (mem_cons_of_mem _ hk)
    obtain ⟨lk, vals, hget, hvals, hstore⟩ := hprogram k (mem_cons_self ..)
    rw [hstore]
    unfold store
    by_cases hin : startOf ls k ≤ x ∧ x < startOf ls k + lk.length
    · right
      rw [if_pos hin]
      have hki := segment_unique hget hi hin hx
      subst hki
      rw [hget] at hi
      cases hi
      exact (hvals _ (by omega)).symm
    · rw [if_neg hin]
      rcases h with hmem | hval
      · left
        apply (mem_cons.mp hmem).resolve_left
        intro hik
        subst hik
        rw [hget] at hi
        cases hi
        exact hin hx
      · exact .inr hval

/-- Programs that each fill their own segment, run in any order, leave the concatenation. -/
theorem map_range_foldl {order : List Nat} (horder : ∀ i < ls.length, i ∈ order)
    (hprogram : ∀ k ∈ order, ∃ lk vals, ls[k]? = some lk ∧
      (∀ j < lk.length, lk[j]? = some (vals j)) ∧
      ∀ out, program out k = store out (startOf ls k) lk.length vals) :
    (List.range ls.flatten.length).map (order.foldl program out) = ls.flatten := by
  apply ext_getElem?
  intro x
  rw [getElem?_map]
  rcases Nat.lt_or_ge x ls.flatten.length with hlt | hge
  · obtain ⟨i, l, hget, hle, hxl⟩ := exists_segment hlt
    have hcell := foldl_segment hget ⟨hle, hxl⟩ hprogram out
      (.inl (horder i (List.getElem?_eq_some_iff.mp hget).1))
    rw [getElem?_range hlt, Option.map_some, hcell]
    have hflat := flatten_getElem? hget (show x - startOf ls i < l.length by omega)
    rw [show startOf ls i + (x - startOf ls i) = x by omega] at hflat
    exact hflat.symm
  · rw [getElem?_eq_none (by simpa using hge), getElem?_eq_none hge]
    rfl

end Sglang.Lib
