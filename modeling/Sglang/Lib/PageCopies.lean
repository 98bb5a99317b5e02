import Mathlib.Data.List.Induction
import Mathlib.Data.List.Nodup
import Mathlib.Logic.Function.Basic

/-!
# Copies Between Pages While Others Are Written

A store of pages under copies from page to page, interleaved with writes to other pages.

- `run_of_not_mem_dsts`: a page that no copy goes to sees the writes only,
- `run_dst`: a page that a copy goes to has what its source had.

The order of the copies does not matter as long as no page is a source and a destination.
-/

namespace Sglang.Lib

open List Function

/-- One access to the store. -/
inductive PageAct (ι α : Type*) where
  | copy (src dst : ι)
  | write (page : ι) (x : α)

namespace PageAct

variable {ι α : Type*} [DecidableEq ι]

def apply (store : ι → α) : PageAct ι α → ι → α
  | .copy src dst => update store dst (store src)
  | .write page x => update store page x

def run (store : ι → α) (acts : List (PageAct ι α)) : ι → α := acts.foldl apply store

/-- The copies of a list, as source and destination. -/
def copies (acts : List (PageAct ι α)) : List (ι × ι) :=
  acts.filterMap fun
    | .copy src dst => some (src, dst)
    | .write _ _ => none

def writes (acts : List (PageAct ι α)) : List (PageAct ι α) :=
  acts.filter fun
    | .copy _ _ => false
    | .write _ _ => true

/-- Every page that is written is in `P`. -/
def WritesIn (P : ι → Prop) (acts : List (PageAct ι α)) : Prop :=
  ∀ page x, .write page x ∈ acts → P page

variable {store : ι → α} {acts : List (PageAct ι α)}

theorem run_append_singleton (a : PageAct ι α) : run store
    (acts ++ [a]) = apply (run store acts) a := by
  simp [run]

theorem run_of_not_mem_dsts {p : ι} (hp : p ∉ (copies acts).map Prod.snd) :
    run store acts p = run store (writes acts) p := by
  -- the last access is the one that counts
  induction acts using List.reverseRecOn with
  | nil => rfl
  | append_singleton acts a ih =>
    rw [run_append_singleton]
    cases a with
    | copy src dst =>
      simp only [copies, filterMap_append, map_append, mem_append, not_or] at hp
      have hne : p ≠ dst := by simpa using hp.2
      simp only [apply, writes, filter_append, update_of_ne hne]
      simpa [writes] using ih hp.1
    | write page x =>
      have hp' : p ∉ (copies acts).map Prod.snd := by simpa [copies] using hp
      have hwrites : writes (acts ++ [.write page x]) = writes acts ++ [.write page x] := by
        simp [writes]
      rw [hwrites, run_append_singleton]
      simp only [apply, update_apply]
      rw [ih hp']

theorem run_writes_of_writesIn {P : ι → Prop} (hw : WritesIn P acts) {p : ι} (hp : ¬ P p) :
    run store (writes acts) p = store p := by
  induction acts using List.reverseRecOn with
  | nil => rfl
  | append_singleton acts a ih =>
    have hw' : WritesIn P acts := fun page x hmem => hw page x (mem_append_left _ hmem)
    cases a with
    | copy src dst => simpa [writes] using ih hw'
    | write page x =>
      have hwrites : writes (acts ++ [.write page x]) = writes acts ++ [.write page x] := by
        simp [writes]
      have hne : p ≠ page := by
        rintro rfl
        exact hp (hw p x (by simp))
      rw [hwrites, run_append_singleton]
      simp only [apply, update_of_ne hne]
      exact ih hw'

theorem run_dst (store : ι → α) {P : ι → Prop} (hnodup : ((copies acts).map Prod.snd).Nodup)
    (happart : ∀ c ∈ copies acts, c.1 ∉ (copies acts).map Prod.snd)
    (hw : WritesIn P acts) (hfree : ∀ c ∈ copies acts, ¬ P c.1 ∧ ¬ P c.2) {c : ι × ι}
    (hc : c ∈ copies acts) : run store acts c.2 = store c.1 := by
  induction acts using List.reverseRecOn with
  | nil => cases hc
  | append_singleton acts a ih =>
    have hw' : WritesIn P acts := fun page x hmem => hw page x (mem_append_left _ hmem)
    rw [run_append_singleton]
    cases a with
    | copy src dst =>
      have hcopies : copies (acts ++ [.copy src dst]) = copies acts ++ [(src, dst)] := by
        simp [copies]
      rw [hcopies] at hnodup happart hfree hc
      rw [map_append, nodup_append] at hnodup
      obtain ⟨hnodup, _, hnew⟩ := hnodup
      have happart' : ∀ c ∈ copies acts, c.1 ∉ (copies acts).map Prod.snd := by
        intro c hc hmem
        apply happart c (mem_append_left _ hc)
        rw [map_append]
        exact mem_append_left _ hmem
      have hfree' : ∀ c ∈ copies acts, ¬ P c.1 ∧ ¬ P c.2 :=
        fun c hc => hfree c (mem_append_left _ hc)
      rcases mem_append.mp hc with hc | hc
      · have hne : c.2 ≠ dst := by
          apply hnew c.2 (mem_map_of_mem hc)
          simp
        simp only [apply, update_of_ne hne]
        exact ih hnodup happart' hw' hfree' hc
      · -- the copy itself: its source is as it was
        obtain rfl := mem_singleton.mp hc
        have hsrc : src ∉ (copies acts).map Prod.snd := by
          intro hmem
          apply happart (src, dst) (by simp)
          rw [map_append]
          exact mem_append_left _ hmem
        simp only [apply, update_self]
        rw [run_of_not_mem_dsts hsrc]
        exact run_writes_of_writesIn hw' (hfree (src, dst) (by simp)).1
    | write page x =>
      have hcopies : copies (acts ++ [.write page x]) = copies acts := by simp [copies]
      rw [hcopies] at hnodup happart hfree hc
      have hne : c.2 ≠ page := by
        rintro rfl
        exact (hfree c hc).2 (hw _ x (by simp))
      simp only [apply, update_of_ne hne]
      exact ih hnodup happart hw' hfree hc

end PageAct

end Sglang.Lib
