import Mathlib.Data.List.Forall2
import Mathlib.Tactic

/-!
# Gathering by Index

The elements of a list at a list of indices, as indexing a tensor by an index tensor does. Indices
that are out of range are passed over; they are excluded before.

- `gather_map`: gathering commutes with an elementwise function,
- `forall₂_gather`: and keeps what relates two lists position by position,
- `getD_map_range`, `mapM_eq_map`: rows computed from their index, and rows computed one after the
  other.
-/

namespace Sglang.Lib

open List

variable {α β : Type*}

/-- `l[indices]`. -/
def gather (l : List α) (indices : List Nat) : List α := indices.filterMap fun i => l[i]?

theorem gather_map (f : α → β) (l : List α) (indices : List Nat) :
    gather (l.map f) indices = (gather l indices).map f := by
  rw [gather, gather, map_filterMap]
  apply filterMap_congr
  intro i _
  exact getElem?_map ..

theorem mem_of_mem_gather {l : List α} {indices : List Nat} {x : α} (h : x ∈ gather l indices) :
    x ∈ l := by
  obtain ⟨i, _, hi⟩ := mem_filterMap.mp h
  exact mem_of_getElem? hi

theorem forall₂_gather {R : α → β → Prop} {l : List α} {l' : List β} (h : List.Forall₂ R l l')
    (indices : List Nat) : List.Forall₂ R (gather l indices) (gather l' indices) := by
  induction indices with
  | nil => exact .nil
  | cons i indices ih =>
    have hlen := h.length_eq
    by_cases hi : i < l.length
    · have hl : l[i]? = some l[i] := getElem?_eq_getElem hi
      have hi' : i < l'.length := hlen ▸ hi
      have hl' : l'[i]? = some l'[i] := getElem?_eq_getElem hi'
      have hR : R l[i] l'[i] := (forall₂_iff_get.mp h).2 i hi hi'
      rw [gather, gather, filterMap_cons_some hl, filterMap_cons_some hl']
      exact .cons hR ih
    · have hl : l[i]? = none := getElem?_eq_none (Nat.not_lt.mp hi)
      have hl' : l'[i]? = none := getElem?_eq_none (hlen ▸ Nat.not_lt.mp hi)
      rw [gather, gather, filterMap_cons_none hl, filterMap_cons_none hl']
      exact ih

theorem getD_map_range {f : Nat → α} {n i : Nat} (hi : i < n) (a : α) :
    ((List.range n).map f).getD i a = f i := by
  rw [getD_eq_getElem?_getD, getElem?_map, getElem?_range hi]
  rfl

theorem mapM_eq_map {f : α → Option β} {g : α → β} : ∀ {l : List α},
    (∀ a ∈ l, f a = some (g a)) → l.mapM f = some (l.map g) := by
  intro l
  induction l with
  | nil => exact fun _ => rfl
  | cons a l ih =>
    intro h
    rw [mapM_cons, h a mem_cons_self, ih fun b hb => h b (mem_cons_of_mem _ hb)]
    rfl

end Sglang.Lib
