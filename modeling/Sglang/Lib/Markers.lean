import Mathlib.Data.List.Infix
import Mathlib.Data.List.TakeDrop
import Mathlib.Tactic.Common

/-!
# Markers in a Text

First occurrences of a marker in a text, and the end of a text that may be the beginning of a
marker.

- `find`: the position of the first occurrence,
- `cut`: the text before and after the first occurrence,
- `cut_append`: more text does not move a first occurrence,
- `cut_append_left`: text in which no occurrence starts can be put aside,
- `hold`: the longest end of a text that is the beginning of a marker,
- `cut_hold`: it is all that a scanner has to keep.
-/

namespace Sglang.Lib

open List Option

variable {α : Type*} [DecidableEq α]

/-! ## Section 1: First occurrences -/

/-- `t.find(p)`. -/
def find (p : List α) : List α → Option Nat
  | [] => if p = [] then some 0 else none
  | c :: t => if p <+: c :: t then some 0 else (find p t).map (· + 1)

/-- The text before and after the first occurrence of `p`. -/
def cut (p : List α) : List α → Option (List α × List α)
  | [] => if p = [] then some ([], []) else none
  | c :: t =>
    if p <+: c :: t then some ([], (c :: t).drop p.length)
    else (cut p t).map fun r => (c :: r.1, r.2)

theorem find_eq_cut (p : List α) (t : List α) : find p t = (cut p t).map fun r => r.1.length := by
  induction t with
  | nil =>
    simp only [find, cut]
    split <;> rfl
  | cons c t ih =>
    simp only [find, cut]
    split
    · rfl
    · rw [ih]
      cases cut p t <;> rfl

variable {p t a b : List α}

theorem cut_eq (h : cut p t = some (a, b)) : t = a ++ p ++ b := by
  induction t generalizing a with
  | nil =>
    simp only [cut] at h
    split at h
    · next hp =>
      cases h
      simp [hp]
    · cases h
  | cons c t ih =>
    simp only [cut] at h
    split at h
    · next hp =>
      cases h
      obtain ⟨r, hr⟩ := hp
      simp [← hr]
    · obtain ⟨⟨a', b'⟩, hcut, heq⟩ := map_eq_some_iff.mp h
      cases heq
      rw [ih hcut]
      rfl

theorem cut_none (h : cut p t = none) : ¬ p <:+: t := by
  induction t with
  | nil =>
    simp only [cut] at h
    split at h
    · cases h
    · next hp => simpa using hp
  | cons c t ih =>
    simp only [cut] at h
    split at h
    · cases h
    · next hp =>
      rw [infix_cons_iff]
      rintro (hpre | hinf)
      · exact hp hpre
      · exact ih (map_eq_none_iff.mp h) hinf

theorem cut_isSome_iff : (cut p t).isSome ↔ p <:+: t := by
  constructor
  · intro h
    obtain ⟨⟨a, b⟩, hcut⟩ := isSome_iff_exists.mp h
    exact ⟨a, b, (cut_eq hcut).symm⟩
  · intro h
    by_contra hnone
    rw [Bool.not_eq_true, isSome_eq_false_iff, isNone_iff_eq_none] at hnone
    exact cut_none hnone h

theorem cut_eq_none_iff : cut p t = none ↔ ¬ p <:+: t := by
  rw [← cut_isSome_iff]
  simp

theorem find_of_cut (h : cut p t = some (a, b)) : find p t = some a.length := by
  rw [find_eq_cut, h]
  rfl

theorem find_none (h : ¬ p <:+: t) : find p t = none := by
  rw [find_eq_cut, cut_eq_none_iff.mpr h]
  rfl

theorem drop_cut (h : cut p t = some (a, b)) :
    t.take a.length = a ∧ t.drop a.length = p ++ b ∧ t.drop (a.length + p.length) = b := by
  have heq := cut_eq h
  subst heq
  refine ⟨?_, ?_, ?_⟩
  · rw [append_assoc, take_left]
  · rw [append_assoc, drop_left]
  · rw [← length_append, drop_left]

theorem cut_append_left (h : List α) :
    (∀ h₁ h₂, h = h₁ ++ h₂ → h₂ ≠ [] → ¬ p <+: h₂ ++ t) →
      cut p (h ++ t) = (cut p t).map fun r => (h ++ r.1, r.2) := by
  induction h with
  | nil => simp
  | cons c h ih =>
    intro hno
    have hhead : ¬ p <+: c :: (h ++ t) := hno [] (c :: h) rfl (by simp)
    rw [cons_append, cut, if_neg hhead, ih ?_]
    · cases cut p t <;> rfl
    · rintro h₁ h₂ rfl hne
      exact hno (c :: h₁) h₂ rfl hne

theorem cut_first (h : cut p t = some (a, b)) :
    ∀ a₁ a₂, a = a₁ ++ a₂ → a₂ ≠ [] → ¬ p <+: a₂ ++ p ++ b := by
  induction t generalizing a with
  | nil =>
    simp only [cut] at h
    split at h
    · cases h
      intro a₁ a₂ ha hne
      exact (hne (append_eq_nil_iff.mp ha.symm).2).elim
    · cases h
  | cons c t ih =>
    have heq := cut_eq h
    simp only [cut] at h
    split at h
    · cases h
      intro a₁ a₂ ha hne
      exact (hne (append_eq_nil_iff.mp ha.symm).2).elim
    · next hp =>
      obtain ⟨⟨a', b'⟩, hcut, hr⟩ := map_eq_some_iff.mp h
      cases hr
      intro a₁ a₂ ha hne
      cases a₁ with
      | nil =>
        rw [nil_append] at ha
        rw [← ha, ← heq]
        exact hp
      | cons d a₁ =>
        rw [cons_append, List.cons.injEq] at ha
        exact ih hcut a₁ a₂ ha.2 hne

theorem cut_of_first (hno : ∀ a₁ a₂, a = a₁ ++ a₂ → a₂ ≠ [] → ¬ p <+: a₂ ++ p ++ b) :
    cut p (a ++ p ++ b) = some (a, b) := by
  have hself : cut p (p ++ b) = some ([], b) := by
    cases hpb : p ++ b with
    | nil =>
      obtain ⟨rfl, rfl⟩ := append_eq_nil_iff.mp hpb
      rfl
    | cons c t =>
      rw [cut, ← hpb, if_pos (prefix_append p b), drop_left]
  rw [append_assoc, cut_append_left a (t := p ++ b), hself]
  · simp
  · intro h₁ h₂ ha hne
    rw [← append_assoc]
    exact hno h₁ h₂ ha hne

theorem cut_append (h : cut p t = some (a, b)) (x : List α) : cut p (t ++ x) = some
    (a, b ++ x) := by
  have heq := cut_eq h
  subst heq
  rw [show a ++ p ++ b ++ x = a ++ p ++ (b ++ x) by simp]
  apply cut_of_first
  intro a₁ a₂ ha hne hpre
  apply cut_first h a₁ a₂ ha hne
  -- The occurrence ends before the text does.
  rw [show a₂ ++ p ++ (b ++ x) = (a₂ ++ p ++ b) ++ x by simp] at hpre
  refine prefix_of_prefix_length_le hpre (prefix_append _ x) ?_
  simp only [length_append]
  omega

theorem cut_unique {a' b' : List α} (h : cut p t = some (a, b)) (ht : t = a' ++ p ++ b') :
    a.length ≤ a'.length := by
  by_contra hlt
  rw [not_le] at hlt
  have heq := cut_eq h
  rw [ht, append_assoc, append_assoc] at heq
  obtain ⟨c, hc⟩ : a' <+: a :=
    prefix_of_prefix_length_le (prefix_append a' (p ++ b'))
      (heq ▸ prefix_append a (p ++ b)) hlt.le
  have hne : c ≠ [] := by
    rintro rfl
    rw [append_nil] at hc
    rw [hc] at hlt
    exact lt_irrefl _ hlt
  refine cut_first h a' c hc.symm hne ?_
  rw [← hc, append_assoc, append_cancel_left_eq] at heq
  rw [append_assoc, ← heq]
  exact prefix_append p b'

/-! ## Section 2: Held ends -/

/-- The longest end of the text that is a proper beginning of `p`. -/
def hold (p : List α) : List α → List α
  | [] => []
  | c :: t => if c :: t <+: p ∧ (c :: t).length < p.length then c :: t else hold p t

theorem hold_suffix (p : List α) (t : List α) : hold p t <:+ t := by
  induction t with
  | nil => exact suffix_rfl
  | cons c t ih =>
    unfold hold
    split
    · exact suffix_rfl
    · exact ih.trans (suffix_cons c t)

theorem hold_longest {e h : List α} (ht : t = e ++ h) (hpre : h <+: p) (hlt : h.length < p.length) :
    h <:+ hold p t := by
  induction t generalizing e with
  | nil =>
    obtain ⟨rfl, rfl⟩ := append_eq_nil_iff.mp ht.symm
    exact suffix_rfl
  | cons c t ih =>
    unfold hold
    split
    · exact ⟨e, ht.symm⟩
    · next hnot =>
      cases e with
      | nil =>
        rw [nil_append] at ht
        subst ht
        exact (hnot ⟨hpre, hlt⟩).elim
      | cons d e =>
        rw [cons_append, List.cons.injEq] at ht
        exact ih ht.2

theorem hold_isPrefix (hp : p ≠ []) : hold p t <+: p ∧ (hold p t).length < p.length := by
  induction t with
  | nil => exact ⟨List.nil_prefix, length_pos_of_ne_nil hp⟩
  | cons c t ih =>
    unfold hold
    split
    · next h => exact h
    · exact ih

/-- Where the marker does not occur, an occurrence that more text completes starts in what a
scanner keeps, if that is at least the held end. -/
theorem cut_hold {e k : List α} (hnone : cut p (e ++ k) = none) (hk : hold p (e ++ k) <:+ k)
    (x : List α) : cut p (e ++ k ++ x) = (cut p (k ++ x)).map fun r => (e ++ r.1, r.2) := by
  rw [append_assoc]
  apply cut_append_left
  intro e₁ e₂ he hne hpre
  -- An occurrence that starts in `e` ends after the text, so it begins with an end of the text.
  have hlong : (e₂ ++ k).length < p.length := by
    by_contra hle
    apply cut_none hnone
    rw [he, append_assoc]
    refine List.IsInfix.trans ?_ (suffix_append e₁ (e₂ ++ k)).isInfix
    refine (prefix_of_prefix_length_le hpre ?_ (not_lt.mp hle)).isInfix
    rw [← append_assoc]
    exact prefix_append _ x
  have hbegin : e₂ ++ k <+: p := by
    refine prefix_of_prefix_length_le ?_ hpre hlong.le
    rw [← append_assoc]
    exact prefix_append _ x
  have hheld := hold_longest (show e ++ k = e₁ ++ (e₂ ++ k) by rw [he, append_assoc]) hbegin hlong
  have hlen := (hheld.trans hk).length_le
  have := length_pos_of_ne_nil hne
  simp only [length_append] at hlen
  omega

theorem hold_append_left (h : List α) :
    (∀ h₁ h₂, h = h₁ ++ h₂ → h₂ ≠ [] → ¬ (h₂ ++ t <+: p ∧ (h₂ ++ t).length < p.length)) →
      hold p (h ++ t) = hold p t := by
  induction h with
  | nil => exact fun _ => rfl
  | cons c h ih =>
    intro hno
    have hhead : ¬ (c :: (h ++ t) <+: p ∧ (c :: (h ++ t)).length < p.length) :=
      hno [] (c :: h) rfl (by simp)
    rw [cons_append, hold, if_neg hhead]
    apply ih
    rintro h₁ h₂ rfl hne
    exact hno (c :: h₁) h₂ rfl hne

theorem hold_append {e k : List α} (hk : hold p (e ++ k) <:+ k) (x : List α) :
    hold p (e ++ k ++ x) = hold p (k ++ x) := by
  rw [append_assoc]
  apply hold_append_left
  rintro e₁ e₂ rfl hne ⟨hpre, hlt⟩
  rw [← append_assoc] at hpre hlt
  have hbegin : e₂ ++ k <+: p := (prefix_append _ x).trans hpre
  have hshort : (e₂ ++ k).length < p.length := by
    rw [length_append] at hlt
    omega
  have hheld := hold_longest (append_assoc e₁ e₂ k) hbegin hshort
  have hlen := (hheld.trans hk).length_le
  have := length_pos_of_ne_nil hne
  simp only [length_append] at hlen
  omega

/-! ## Section 3: Two markers -/

/-- More text brings another marker only after an occurrence that it is not part of. -/
theorem cut_append_later {q x a' b' : List α} (hp : cut p t = some (a, b)) (hq : cut q t = none)
    (hoccurs : ¬ p <:+: q) (hlater : cut q (t ++ x) = some (a', b')) : a.length < a'.length := by
  by_contra hle
  rw [not_lt] at hle
  have heq := cut_eq hp
  have heq' := cut_eq hlater
  -- `a = a' ++ c`, and the other marker reaches over the end of the text.
  have hlong : (t.drop a'.length).length < q.length := by
    by_contra hshort
    apply cut_none hq
    have hpre : q <+: t.drop a'.length := by
      refine prefix_of_prefix_length_le (prefix_append q b') ?_ (not_lt.mp hshort)
      have hdrop : t.drop a'.length ++ x = q ++ b' := by
        rw [← drop_append_of_le_length, heq', append_assoc, drop_left]
        rw [heq]
        simp only [length_append]
        omega
      rw [← hdrop]
      exact prefix_append _ x
    exact hpre.isInfix.trans (drop_suffix _ t).isInfix
  have hle' : a'.length ≤ t.length := by
    rw [heq]
    simp only [length_append]
    omega
  have hdrop : t.drop a'.length ++ x = q ++ b' := by
    rw [← drop_append_of_le_length hle', heq', append_assoc, drop_left]
  have hpre : t.drop a'.length <+: q :=
    prefix_of_prefix_length_le (hdrop ▸ prefix_append _ x) (prefix_append q b') hlong.le
  apply hoccurs
  refine List.IsInfix.trans ?_ hpre.isInfix
  rw [heq, append_assoc, drop_append_of_le_length hle]
  exact ⟨a.drop a'.length, b, by simp⟩

/-- A marker whose first letter does not occur again in it. -/
def Led (c : α) (p : List α) : Prop := ∃ q, p = c :: q ∧ c ∉ q

omit [DecidableEq α] in
theorem Led.not_isPrefix {c : α} {z : List α} (hled : Led c p) (hnone : ¬ p <:+: t) :
    ∀ e₁ e₂, t = e₁ ++ e₂ → e₂ ≠ [] → ¬ p <+: e₂ ++ c :: z := by
  rintro e₁ e₂ rfl hne hpre
  obtain ⟨q, rfl, hq⟩ := hled
  by_cases hle : (c :: q).length ≤ e₂.length
  · apply hnone
    refine (prefix_of_prefix_length_le hpre (prefix_append e₂ _) hle).isInfix.trans ?_
    exact (suffix_append e₁ e₂).isInfix
  · obtain ⟨d, e, rfl⟩ := exists_cons_of_ne_nil hne
    have hpre' : d :: e ++ [c] <+: c :: q := by
      refine prefix_of_prefix_length_le ?_ hpre (by simp at hle ⊢; omega)
      exact ⟨z, by simp⟩
    obtain ⟨r, hr⟩ := hpre'
    simp only [cons_append, append_assoc, List.cons.injEq] at hr
    apply hq
    rw [← hr.2]
    simp

/-- Text without such a marker can be put aside up to the next first letter. -/
theorem Led.cut_append {c : α} {x z : List α} (hled : Led c p) (hnone : ¬ p <:+: x)
    (hz : z = [] ∨ z.head? = some c) :
    cut p (x ++ z) = (cut p z).map fun r => (x ++ r.1, r.2) := by
  rcases hz with rfl | hz
  · have hnil : cut p [] = none := by
      rw [cut_eq_none_iff]
      intro hin
      obtain ⟨q, rfl, _⟩ := hled
      cases infix_nil.mp hin
    rw [append_nil, hnil, cut_eq_none_iff.mpr hnone]
    rfl
  · cases z with
    | nil => cases hz
    | cons d z =>
      rw [head?_cons, Option.some.injEq] at hz
      subst hz
      exact cut_append_left x (hled.not_isPrefix hnone)

theorem Led.hold_eq {c : α} {e h : List α} (hled : Led c p) (ht : t = e ++ h) (hpre : h <+: p)
    (hlt : h.length < p.length) (hne : h ≠ []) : hold p t = h := by
  obtain ⟨u, hu⟩ := hold_longest ht hpre hlt
  obtain ⟨q, rfl, hq⟩ := hled
  obtain ⟨r, hr⟩ := (@hold_isPrefix _ _ (c :: q) t (by simp)).1
  rw [← hu] at hr ⊢
  -- The held end starts with `c`, so `c` would occur again.
  obtain ⟨d, h, rfl⟩ := exists_cons_of_ne_nil hne
  obtain ⟨r', hr'⟩ := hpre
  rw [cons_append, List.cons.injEq] at hr'
  cases u with
  | nil => rfl
  | cons f u =>
    simp only [cons_append, append_assoc, List.cons.injEq] at hr
    refine (hq ?_).elim
    rw [← hr.2, hr'.1]
    simp

/-! ## Section 4: Markers that keep apart -/

/-- Neither marker is in the other one, and no end of one begins the other. -/
structure Apart (p q : List α) : Prop where
  infix_left : p <:+: q → p = q
  infix_right : q <:+: p → p = q
  overlap_left : ∀ s ∈ p.tails, s ≠ [] → s <+: q → s = p
  overlap_right : ∀ s ∈ q.tails, s ≠ [] → s <+: p → s = q

omit [DecidableEq α] in
/-- A marker in a text around another one is on one side of it, or it is that one. -/
theorem Apart.occurrence {q x y : List α} (h : Apart p q) (heq : a ++ p ++ b = x ++ q ++ y) :
    p <:+: x ∨ p <:+: y ∨ p = q ∧ a = x := by
  rw [append_assoc, append_assoc] at heq
  rcases append_eq_append_iff.mp heq with ⟨u, hx, hrest⟩ | ⟨u, ha, hrest⟩
  · -- It starts before the other one.
    rcases append_eq_append_iff.mp hrest with ⟨z, hu, _⟩ | ⟨s, hp, hs⟩
    · left
      exact ⟨a, z, by rw [hx, hu, append_assoc]⟩
    · by_cases hnil : s = []
      · left
        rw [hnil, append_nil] at hp
        exact ⟨a, [], by rw [hx, hp, append_nil]⟩
      · right; right
        have hu : u = [] ∧ p = q := by
          rcases prefix_or_prefix_of_prefix ⟨b, hs.symm⟩ (prefix_append q y) with hpre | hpre
          · have hsp := h.overlap_left s ((mem_tails _ _).mpr ⟨u, hp.symm⟩) hnil hpre
            rw [hsp] at hp hpre
            exact ⟨append_left_eq_self.mp hp.symm, h.infix_left hpre.isInfix⟩
          · have hpq := h.infix_right (hpre.isInfix.trans ⟨u, [], by rw [hp, append_nil]⟩)
            have hlen := congrArg List.length hp
            have hle := hpre.length_le
            rw [← hpq] at hle
            rw [length_append] at hlen
            exact ⟨eq_nil_of_length_eq_zero (by omega), hpq⟩
        rw [hu.1, append_nil] at hx
        exact ⟨hu.2, hx.symm⟩
  · -- It starts in the other one, or after it.
    rcases append_eq_append_iff.mp hrest with ⟨z, _, hy⟩ | ⟨s, hq, hs⟩
    · right; left
      exact ⟨z, b, by rw [hy, append_assoc]⟩
    · by_cases hnil : s = []
      · right; left
        rw [hnil, nil_append] at hs
        exact ⟨[], b, by rw [← hs, nil_append]⟩
      · right; right
        have hu : u = [] ∧ p = q := by
          rcases prefix_or_prefix_of_prefix ⟨y, hs.symm⟩ (prefix_append p b) with hpre | hpre
          · have hsq := h.overlap_right s ((mem_tails _ _).mpr ⟨u, hq.symm⟩) hnil hpre
            rw [hsq] at hq hpre
            exact ⟨append_left_eq_self.mp hq.symm, h.infix_right hpre.isInfix⟩
          · have hpq := h.infix_left (hpre.isInfix.trans ⟨u, [], by rw [hq, append_nil]⟩)
            have hlen := congrArg List.length hq
            have hle := hpre.length_le
            rw [hpq] at hle
            rw [length_append] at hlen
            exact ⟨eq_nil_of_length_eq_zero (by omega), hpq⟩
        rw [hu.1, append_nil] at ha
        exact ⟨hu.2, ha⟩

end Sglang.Lib
