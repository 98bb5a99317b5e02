import Mathlib.Data.Set.Basic
import Sglang.Lib.CommonPrefix

/-!
# Page Stores

What a paged prefix cache is for: a partial map from page-aligned words to pages of values.

- `insert` adds the pages of a word that are missing and never overwrites one,
- `remove` drops the pages of some words,
- `Answers` is the specification of a lookup: the values of the longest prefix all of whose
  pages are stored.
-/

namespace Sglang.Lib

open List

variable {α β : Type*}

/-- A non-empty prefix of `w` made of whole pages. -/
structure IsPagePrefix (ps : Nat) (p w : List α) : Prop where
  ne_nil : p ≠ []
  dvd : ps ∣ p.length
  isPrefix : p <+: w

theorem IsPagePrefix.trans {ps : Nat} {p w w' : List α} (h : IsPagePrefix ps p w)
    (hw : w <+: w') : IsPagePrefix ps p w' := ⟨h.ne_nil, h.dvd, h.isPrefix.trans hw⟩

theorem IsPagePrefix.page_le {ps : Nat} {p w : List α} (h : IsPagePrefix ps p w) :
    ps ≤ p.length := Nat.le_of_dvd (length_pos_of_ne_nil h.ne_nil) h.dvd

/-- The page of values that belongs to the last page of the word `p`. -/
def pageAt (ps : Nat) (vals : List β) (p : List α) : List β :=
  (vals.take p.length).drop (p.length - ps)

theorem pageAt_of_isPrefix {ps : Nat} {vals vals' : List β} {p : List α} (h : vals <+: vals')
    (hlen : p.length ≤ vals.length) : pageAt ps vals p = pageAt ps vals' p := by
  obtain ⟨r, rfl⟩ := h
  unfold pageAt
  rw [take_append_of_le_length hlen]

theorem pageAt_append_drop {ps d : Nat} {front vals : List β} {p : List α}
    (hfront : front.length = d) (hd : d + ps ≤ p.length) :
    pageAt ps (front ++ vals.drop d) p = pageAt ps vals p := by
  unfold pageAt
  rw [take_append, drop_append, drop_eq_nil_of_le (by simp; omega),
    nil_append, take_drop, length_take, hfront, min_eq_right (by omega),
    drop_drop]
  congr 2 <;> omega

/-- A partial map from page-aligned words to pages, as its graph. -/
abbrev PageStore (α β : Type*) := Set (List α × List β)

namespace PageStore

def keys (A : PageStore α β) : Set (List α) := {p | ∃ pg, (p, pg) ∈ A}

/-- Store the pages of `w` that are missing, with their values. -/
def insert (ps : Nat) (w : List α) (vals : List β) (A : PageStore α β) : PageStore α β :=
  A ∪ {x | IsPagePrefix ps x.1 w ∧ x.1 ∉ A.keys ∧ x.2 = pageAt ps vals x.1}

def remove (gone : Set (List α)) (A : PageStore α β) : PageStore α β := {x | x ∈ A ∧ x.1 ∉ gone}

variable {ps : Nat} {w : List α} {vals : List β} {A : PageStore α β}

theorem insert_eq_self
    (h : ∀ p, IsPagePrefix ps p w → p ∈ A.keys) : A.insert ps w vals = A := by
  ext x
  constructor
  · rintro (hx | ⟨hp, hnot, _⟩)
    · exact hx
    · exact absurd (h _ hp) hnot
  · exact Or.inl

/-- `vals` are the values of the longest prefix of `w` whose last page is stored, page by page. -/
structure Answers (ps : Nat) (A : PageStore α β) (w : List α) (vals : List β) : Prop where
  dvd : ps ∣ vals.length
  length_le : vals.length ≤ w.length
  pages : ∀ m, 0 < m → ps ∣ m → m ≤ vals.length →
    (w.take m, (vals.take m).drop (m - ps)) ∈ A
  longest : ∀ p, IsPagePrefix ps p w → p ∈ A.keys → p.length ≤ vals.length

theorem Answers.of_aligned
    (h : A.Answers ps (w.take (pageFloor ps w.length)) vals) : A.Answers ps w vals := by
  have hle : vals.length ≤ pageFloor ps w.length := h.length_le.trans (length_take_le _ _)
  refine ⟨h.dvd, hle.trans (pageFloor_le _ _), ?_, ?_⟩
  · intro m hpos hdvd hm
    have := h.pages m hpos hdvd hm
    rwa [take_take, min_eq_left (hm.trans hle)] at this
  · intro p hp hkeys
    refine h.longest p ⟨hp.ne_nil, hp.dvd, ?_⟩ hkeys
    rw [prefix_take_iff]
    exact ⟨hp.isPrefix, (le_pageFloor_iff hp.dvd).mpr hp.isPrefix.length_le⟩

theorem Answers.mem_page (hps : 0 < ps) (h : A.Answers ps w vals) {x : β} (hx : x ∈ vals) :
    ∃ p pg, (p, pg) ∈ A ∧ IsPagePrefix ps p w ∧ x ∈ pg := by
  obtain ⟨i, hi, rfl⟩ := getElem_of_mem hx
  -- position `i` is in the page that ends at `m`
  set m := i / ps * ps + ps with hm
  have hdvd : ps ∣ m := Dvd.dvd.add (Nat.dvd_mul_left _ _) (dvd_refl _)
  have hfloor : i / ps * ps ≤ i := Nat.div_mul_le_self _ _
  have hlt : i < m := lt_pageFloor_add hps i
  have hmle : m ≤ vals.length := by
    have hgap := Nat.dvd_sub h.dvd (Nat.dvd_mul_left ps (i / ps))
    have := Nat.le_of_dvd (by omega) hgap
    omega
  have hlen : (w.take m).length = m := by
    rw [length_take, min_eq_left (hmle.trans h.length_le)]
  refine ⟨w.take m, _, h.pages m (by omega) hdvd hmle, ⟨?_, ?_, take_prefix _ _⟩, ?_⟩
  · exact ne_nil_of_length_pos (by omega)
  · rw [hlen]
    exact hdvd
  · rw [mem_iff_getElem]
    refine ⟨i - (m - ps), by rw [length_drop, length_take]; omega, ?_⟩
    rw [getElem_drop, getElem_take]
    congr 1
    omega

end PageStore

end Sglang.Lib
