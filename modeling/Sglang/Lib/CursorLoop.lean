import Mathlib.Algebra.Group.Defs
import Mathlib.Data.List.Basic
import Mathlib.Tactic

/-!
# Cursor Loops

A parser that looks at the rest of its buffer, moves a cursor over what it has understood and waits
when it needs more text, or raises. Chunks of text are appended to what the cursor has not passed.

- `Cursor`: one step, which moves the cursor forward whenever it moves,
- `Cursor.loop`: all steps on a buffer, and where they stop,
- `Online`: a step that was taken stays right when more text comes,
- `loop_append`: then the text that comes later goes on where the loop stopped.
-/

namespace Sglang.Lib

open List

variable {σ ω α : Type*}

/-- What a step does: wait for more text, raise, or put out something and move on. A step that
raises may have changed the state. -/
inductive Move (σ ω : Type*) where
  | wait
  | fail (next : σ)
  | go (out : ω) (next : σ) (n : Nat)

/-- A step function that moves forward. -/
structure Cursor (σ ω α : Type*) where
  step : σ → List α → Move σ ω
  advance : ∀ {st s out next n}, step st s = .go out next n → 0 < n ∧ n ≤ s.length

/-- Where a loop stops: what it put out, the state and the text from the cursor on, and whether the
last step raised. -/
@[ext]
structure Stop (σ ω α : Type*) where
  out : ω
  next : σ
  rest : List α
  raised : Bool

namespace Stop

variable [AddMonoid ω]

def prepend (out : ω) (r : Stop σ ω α) : Stop σ ω α := { r with out := out + r.out }

@[simp] theorem prepend_rest (out : ω) (r : Stop σ ω α) : (r.prepend out).rest = r.rest := rfl

@[simp] theorem prepend_raised (out : ω) (r : Stop σ ω α) : (r.prepend out).raised = r.raised := rfl

@[simp] theorem prepend_zero (r : Stop σ ω α) : r.prepend 0 = r := by
  simp [prepend]

theorem prepend_prepend (out out' : ω) (r : Stop σ ω α) :
    (r.prepend out').prepend out = r.prepend (out + out') := by
  simp [prepend, add_assoc]

end Stop

namespace Cursor

theorem loop_induction (c : Cursor σ ω α) {P : σ → List α → Prop}
    (wait : ∀ st s, c.step st s = .wait → P st s)
    (fail : ∀ st s next, c.step st s = .fail next → P st s)
    (go : ∀ st s out next n, c.step st s = .go out next n → P next (s.drop n) → P st s)
    (st : σ) (s : List α) : P st s := by
  cases hstep : c.step st s with
  | wait => exact wait st s hstep
  | fail next => exact fail st s next hstep
  | go out next n =>
    exact go st s out next n hstep (loop_induction c wait fail go next (s.drop n))
termination_by s.length
decreasing_by
  have := c.advance hstep
  simp only [length_drop]
  omega

variable [AddMonoid ω]

def loop (c : Cursor σ ω α) (st : σ) (s : List α) : Stop σ ω α :=
  match _h : c.step st s with
  | .wait => ⟨0, st, s, false⟩
  | .fail next => ⟨0, next, s, true⟩
  | .go out next n => (loop c next (s.drop n)).prepend out
termination_by s.length
decreasing_by
  have := c.advance _h
  simp only [length_drop]
  omega

variable {c : Cursor σ ω α} {st next : σ} {s : List α} {out : ω} {n : Nat}

theorem loop_wait (h : c.step st s = .wait) : c.loop st s = ⟨0, st, s, false⟩ := by
  rw [loop]
  split <;> simp_all

theorem loop_fail (h : c.step st s = .fail next) : c.loop st s = ⟨0, next, s, true⟩ := by
  rw [loop]
  split <;> simp_all

theorem loop_go (h : c.step st s = .go out next n) :
    c.loop st s = (c.loop next (s.drop n)).prepend out := by
  rw [loop]
  split
  · simp_all
  · simp_all
  · next heq =>
    rw [h] at heq
    cases heq
    rfl

variable (c) in
theorem loop_rest (st : σ) (s : List α) : (c.loop st s).rest <:+ s := by
  induction st, s using c.loop_induction with
  | wait st s h => rw [loop_wait h]
  | fail st s next h => rw [loop_fail h]
  | go st s out next n h ih =>
    rw [loop_go h]
    exact ih.trans (drop_suffix n s)

/-- More text does not change what was decided without it. -/
structure Online (c : Cursor σ ω α) : Prop where
  /-- A step that raised raises again. -/
  stuck : ∀ {st s next}, c.step st s = .fail next → c.step next s = .fail next
  fail : ∀ {st s next}, c.step st s = .fail next → ∀ t, c.step st (s ++ t) = .fail next
  go : ∀ {st s out next n}, c.step st s = .go out next n → ∀ t,
    c.loop st (s ++ t) = (c.loop next (s.drop n ++ t)).prepend out

theorem loop_append_go (h : c.step st s = .go out next n) {t : List α}
    (hsame : c.step st (s ++ t) = .go out next n) :
    c.loop st (s ++ t) = (c.loop next (s.drop n ++ t)).prepend out := by
  rw [loop_go hsame, drop_append_of_le_length (c.advance h).2]

theorem Online.loop_settled (hc : c.Online) (st : σ) (s : List α) :
    c.loop (c.loop st s).next (c.loop st s).rest =
      ⟨0, (c.loop st s).next, (c.loop st s).rest, (c.loop st s).raised⟩ := by
  induction st, s using c.loop_induction with
  | wait st s h => rw [loop_wait h, loop_wait h]
  | fail st s next h => rw [loop_fail h, loop_fail (hc.stuck h)]
  | go st s out next n h ih =>
    rw [loop_go h]
    exact ih

theorem Online.loop_append (hc : c.Online) (st : σ) (s t : List α) : c.loop st (s ++ t) =
    (c.loop (c.loop st s).next ((c.loop st s).rest ++ t)).prepend (c.loop st s).out := by
  induction st, s using c.loop_induction with
  | wait st s h => rw [loop_wait h, Stop.prepend_zero]
  | fail st s next h =>
    rw [loop_fail h, loop_fail (hc.fail h t), loop_fail (hc.fail (hc.stuck h) t), Stop.prepend_zero]
  | go st s out next n h ih =>
    rw [hc.go h, loop_go h, ih]
    exact Stop.prepend_prepend ..

theorem Online.raised_append (hc : c.Online) {st : σ} {s : List α} (h : (c.loop st s).raised = true)
    (t : List α) : (c.loop st (s ++ t)).raised = true ∧
      (c.loop st (s ++ t)).rest = (c.loop st s).rest ++ t := by
  induction st, s using c.loop_induction with
  | wait st s hstep =>
    rw [loop_wait hstep] at h
    cases h
  | fail st s next hstep =>
    rw [loop_fail hstep, loop_fail (hc.fail hstep t)]
    exact ⟨rfl, rfl⟩
  | go st s out next n hstep ih =>
    rw [loop_go hstep] at h ⊢
    rw [hc.go hstep]
    exact ih h

end Cursor

end Sglang.Lib
