import Mathlib.Data.List.Basic
import Mathlib.Tactic

/-!
# Regular Expressions with Anchors

Syntax trees of regular expressions over tests of one character and zero-width anchors, and the
spans that they match in a text.

- `Reading`: what a matcher sees of a text, namely which tests and anchors hold at a position,
- `Pattern.Matches`: the spans of a pattern,
- `Pattern.leads`: the anchors that can be asked before a character is read,
- `Pattern.transfer`: a match carries over to another reading that agrees on the span, where the
  start of the span counts only for the leading anchors.

Greedy and lazy repetitions match the same spans: which one is found first is not modelled.
-/

namespace Sglang.Lib.Regex

variable {τ β : Type}

/-! ## Section 1: Syntax -/

mutual

inductive Node (τ β : Type) where
  | char (test : τ)
  | anchor (a : β)
  | group (inner : Pattern τ β)
  | branch (branches : Branches τ β)
  | repetition (greedy : Bool) (lo : Nat) (hi : Option Nat) (inner : Pattern τ β)

/-- A sequence of nodes. -/
inductive Pattern (τ β : Type) where
  | nil
  | cons (node : Node τ β) (rest : Pattern τ β)

/-- One alternative or more. -/
inductive Branches (τ β : Type) where
  | last (p : Pattern τ β)
  | more (p : Pattern τ β) (rest : Branches τ β)

end

/-! ## Section 2: Spans -/

/-- The tests that the character at a position passes, if there is one, and the anchors that hold
there. -/
structure Reading (τ β : Type) where
  reads : τ → Nat → Prop
  holds : β → Nat → Prop

/-- `n` spans of `r`, one after the other. -/
def Steps (r : Nat → Nat → Prop) : Nat → Nat → Nat → Prop
  | 0, i, j => j = i
  | n + 1, i, j => ∃ k, r i k ∧ Steps r n k j

mutual

def Node.Matches (R : Reading τ β) : Node τ β → Nat → Nat → Prop
  | .char t => fun i j => R.reads t i ∧ j = i + 1
  | .anchor a => fun i j => R.holds a i ∧ j = i
  | .group p => p.Matches R
  | .branch bs => bs.Matches R
  | .repetition _ lo hi p => fun i j =>
    ∃ n, lo ≤ n ∧ (∀ h, hi = some h → n ≤ h) ∧ Steps (p.Matches R) n i j

def Pattern.Matches (R : Reading τ β) : Pattern τ β → Nat → Nat → Prop
  | .nil => fun i j => j = i
  | .cons x rest => fun i j => ∃ k, x.Matches R i k ∧ rest.Matches R k j

def Branches.Matches (R : Reading τ β) : Branches τ β → Nat → Nat → Prop
  | .last p => p.Matches R
  | .more p rest => fun i j => p.Matches R i j ∨ rest.Matches R i j

end

theorem Steps.le {r : Nat → Nat → Prop} (hr : ∀ i j, r i j → i ≤ j) :
    ∀ {n i j}, Steps r n i j → i ≤ j := by
  intro n
  induction n with
  | zero => intro i j h; exact Nat.le_of_eq h.symm
  | succ n ih =>
    rintro i j ⟨k, hk, h⟩
    exact (hr i k hk).trans (ih h)

theorem Steps.le_add {r : Nat → Nat → Prop} {w : Nat} (hr : ∀ i j, r i j → j ≤ i + w) :
    ∀ {n i j}, Steps r n i j → j ≤ i + n * w := by
  intro n
  induction n with
  | zero => intro i j h; simp [show j = i from h]
  | succ n ih =>
    rintro i j ⟨k, hk, h⟩
    have hfirst := hr i k hk
    have hrest := ih h
    rw [Nat.add_mul, Nat.one_mul]
    omega

mutual

theorem Node.Matches.le {R : Reading τ β} : ∀ (x : Node τ β) {i j}, x.Matches R i j → i ≤ j
  | .char _, i, j, h => by have := h.2; omega
  | .anchor _, i, j, h => Nat.le_of_eq h.2.symm
  | .group p, _, _, h => Pattern.Matches.le p h
  | .branch bs, _, _, h => Branches.Matches.le bs h
  | .repetition _ _ _ p, _, _, h => by
    obtain ⟨n, -, -, hn⟩ := h
    exact Steps.le (fun _ _ => Pattern.Matches.le p) hn

theorem Pattern.Matches.le {R : Reading τ β} : ∀ (p : Pattern τ β) {i j}, p.Matches R i j → i ≤ j
  | .nil, _, _, h => Nat.le_of_eq h.symm
  | .cons x rest, _, _, h => by
    obtain ⟨k, hx, hrest⟩ := h
    exact (Node.Matches.le x hx).trans (Pattern.Matches.le rest hrest)

theorem Branches.Matches.le {R : Reading τ β} : ∀ (bs : Branches τ β) {i j}, bs.Matches R i j →
    i ≤ j
  | .last p, _, _, h => Pattern.Matches.le p h
  | .more p _, _, _, .inl h => Pattern.Matches.le p h
  | .more _ rest, _, _, .inr h => Branches.Matches.le rest h

end

/-! ## Section 3: Leading anchors -/

mutual

def Node.nullable : Node τ β → Bool
  | .char _ => false
  | .anchor _ => true
  | .group p => p.nullable
  | .branch bs => bs.nullable
  | .repetition _ lo _ p => lo == 0 || p.nullable

def Pattern.nullable : Pattern τ β → Bool
  | .nil => true
  | .cons x rest => x.nullable && rest.nullable

def Branches.nullable : Branches τ β → Bool
  | .last p => p.nullable
  | .more p rest => p.nullable || rest.nullable

end

mutual

/-- Whether the anchor can be asked before a character is read. -/
def Node.leads [DecidableEq β] (a : β) : Node τ β → Bool
  | .char _ => false
  | .anchor b => b == a
  | .group p => p.leads a
  | .branch bs => bs.leads a
  | .repetition _ _ hi p => hi != some 0 && p.leads a

def Pattern.leads [DecidableEq β] (a : β) : Pattern τ β → Bool
  | .nil => false
  | .cons x rest => x.leads a || (x.nullable && rest.leads a)

def Branches.leads [DecidableEq β] (a : β) : Branches τ β → Bool
  | .last p => p.leads a
  | .more p rest => p.leads a || rest.leads a

end

mutual

theorem Node.nullable_of_matches {R : Reading τ β} : ∀ (x : Node τ β) {i}, x.Matches R i i →
    x.nullable = true
  | .char _, i, h => by have := h.2; omega
  | .anchor _, _, _ => rfl
  | .group p, _, h => Pattern.nullable_of_matches p h
  | .branch bs, _, h => Branches.nullable_of_matches bs h
  | .repetition _ lo _ p, i, h => by
    obtain ⟨n, hlo, -, hn⟩ := h
    cases n with
    | zero => simp [Node.nullable, show lo = 0 by omega]
    | succ n =>
      obtain ⟨k, hk, hn⟩ := hn
      obtain rfl : k = i := by
        have hle := Pattern.Matches.le p hk
        have hge := Steps.le (fun _ _ => Pattern.Matches.le p) hn
        omega
      simp [Node.nullable, Pattern.nullable_of_matches p hk]

theorem Pattern.nullable_of_matches {R : Reading τ β} :
    ∀ (p : Pattern τ β) {i}, p.Matches R i i → p.nullable = true
  | .nil, _, _ => rfl
  | .cons x rest, i, h => by
    obtain ⟨k, hx, hrest⟩ := h
    obtain rfl : k = i := by
      have hle := Node.Matches.le x hx
      have hge := Pattern.Matches.le rest hrest
      omega
    simp [Pattern.nullable, Node.nullable_of_matches x hx, Pattern.nullable_of_matches rest hrest]

theorem Branches.nullable_of_matches {R : Reading τ β} :
    ∀ (bs : Branches τ β) {i}, bs.Matches R i i → bs.nullable = true
  | .last p, _, h => Pattern.nullable_of_matches p h
  | .more p _, _, .inl h => by simp [Branches.nullable, Pattern.nullable_of_matches p h]
  | .more _ rest, _, .inr h => by simp [Branches.nullable, Branches.nullable_of_matches rest h]

end

/-! ## Section 4: Another reading -/

/-- `B` reads at `g k` what `A` reads at the position `k` of the span from `i` to `j`. The anchors
at its start are left open. -/
structure Carries (A B : Reading τ β) (g : Nat → Nat) (i j : Nat) : Prop where
  next : ∀ k, i ≤ k → k < j → g (k + 1) = g k + 1
  reads : ∀ t k, i ≤ k → k < j → A.reads t k → B.reads t (g k)
  holds : ∀ a k, i < k → k ≤ j → A.holds a k → B.holds a (g k)

variable {A B : Reading τ β} {g : Nat → Nat}

theorem Carries.mono {i j i' j' : Nat} (h : Carries A B g i j) (hi : i ≤ i') (hj : j' ≤ j) :
    Carries A B g i' j' where
  next := fun k hk hkj => h.next k (hi.trans hk) (by omega)
  reads := fun t k hk hkj => h.reads t k (hi.trans hk) (by omega)
  holds := fun a k hk hkj => h.holds a k (by omega) (by omega)

/-- The anchors of `L` carry over at `i`. -/
def StartsAt (A B : Reading τ β) (g : Nat → Nat) (L : β → Bool) (i : Nat) : Prop :=
  ∀ a, L a = true → A.holds a i → B.holds a (g i)

theorem Carries.startsAt {i j k : Nat} (h : Carries A B g i j) (L : β → Bool) (hik : i < k)
    (hkj : k ≤ j) :
    StartsAt A B g L k :=
  fun a _ => h.holds a k hik hkj

theorem Steps.transfer {r s : Nat → Nat → Prop} {L : β → Bool} {n i j : Nat}
    (hle : ∀ i j, r i j → i ≤ j)
    (hstep : ∀ i j, Carries A B g i j → StartsAt A B g L i → r i j → s (g i) (g j))
    (hc : Carries A B g i j) (hL : 0 < n → StartsAt A B g L i) (h : Steps r n i j) :
    Steps s n (g i) (g j) := by
  induction n generalizing i with
  | zero => exact congrArg g h
  | succ n ih =>
    obtain ⟨k, hk, h⟩ := h
    have hik := hle i k hk
    have hkj := Steps.le hle h
    refine ⟨g k, hstep i k (hc.mono le_rfl hkj) (hL (Nat.succ_pos n)) hk,
      ih (hc.mono hik le_rfl) ?_ h⟩
    intro _
    rcases hik.eq_or_lt with rfl | hlt
    · exact hL (Nat.succ_pos n)
    · exact hc.startsAt L hlt hkj

variable [DecidableEq β]

mutual

theorem Node.transfer : ∀ (x : Node τ β) {i j : Nat}, Carries A B g i j →
    StartsAt A B g (x.leads ·) i → x.Matches A i j → x.Matches B (g i) (g j)
  | .char t, i, _, hc, _, h => by
    obtain ⟨ht, rfl⟩ := h
    exact ⟨hc.reads t i le_rfl (Nat.lt_succ_self i) ht, hc.next i le_rfl (Nat.lt_succ_self i)⟩
  | .anchor a, _, _, _, hL, h => by
    obtain ⟨ha, rfl⟩ := h
    exact ⟨hL a (by simp [Node.leads]) ha, rfl⟩
  | .group p, _, _, hc, hL, h => Pattern.transfer p hc hL h
  | .branch bs, _, _, hc, hL, h => Branches.transfer bs hc hL h
  | .repetition _ _ hi p, _, _, hc, hL, h => by
    obtain ⟨n, hlo, hhi, hn⟩ := h
    refine ⟨n, hlo, hhi, Steps.transfer (fun _ _ => Pattern.Matches.le p)
      (fun _ _ => Pattern.transfer p) hc ?_ hn⟩
    intro hpos a ha
    refine hL a ?_
    have hne : hi ≠ some 0 := fun h0 => by have := hhi 0 h0; omega
    simp [Node.leads, hne, ha]

theorem Pattern.transfer : ∀ (p : Pattern τ β) {i j : Nat}, Carries A B g i j →
    StartsAt A B g (p.leads ·) i → p.Matches A i j → p.Matches B (g i) (g j)
  | .nil, _, _, _, _, h => congrArg g h
  | .cons x rest, i, j, hc, hL, h => by
    obtain ⟨k, hx, hrest⟩ := h
    have hik := Node.Matches.le x hx
    have hkj := Pattern.Matches.le rest hrest
    refine ⟨g k,
      Node.transfer x (hc.mono le_rfl hkj) (fun a ha => hL a (by simp [Pattern.leads, ha])) hx,
      Pattern.transfer rest (hc.mono hik le_rfl) ?_ hrest⟩
    rcases hik.eq_or_lt with rfl | hlt
    · -- nothing is read yet, and the rest leads as well
      have hnull := Node.nullable_of_matches x hx
      exact fun a ha => hL a (by simp [Pattern.leads, hnull, ha])
    · exact hc.startsAt _ hlt hkj

theorem Branches.transfer : ∀ (bs : Branches τ β) {i j : Nat}, Carries A B g i j →
    StartsAt A B g (bs.leads ·) i → bs.Matches A i j → bs.Matches B (g i) (g j)
  | .last p, _, _, hc, hL, h => Pattern.transfer p hc hL h
  | .more p _, _, _, hc, hL, .inl h =>
    .inl (Pattern.transfer p hc (fun a ha => hL a (by simp [Branches.leads, ha])) h)
  | .more _ rest, _, _, hc, hL, .inr h =>
    .inr (Branches.transfer rest hc (fun a ha => hL a (by simp [Branches.leads, ha])) h)

end

end Sglang.Lib.Regex
