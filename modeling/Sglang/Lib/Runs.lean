import Mathlib.Data.List.Basic
import Mathlib.Logic.Basic

/-!
# Runs of a Step Function

A partial step function, run over a list of operations.

- `run`: the state after the operations, `none` once a step is undefined,
- `Along`: what holds before each operation of a run, in the state it starts from,
- `run_of_invariant`: an invariant that every step keeps holds after every run,
- `invariant_of_run`: the same where a step may be disabled,
- `stays_iff_along`, `always_iff_along`: a property that each step keeps exactly under a condition
  holds all along a run if and only if the condition does.
-/

namespace Sglang.Lib

open List Option

variable {σ α : Type*}

def run (step : σ → α → Option σ) (s : σ) : List α → Option σ
  | [] => some s
  | a :: as => (step s a).bind fun t => run step t as

/-- `P` holds before each operation of a run. -/
def Along (step : σ → α → Option σ) (P : σ → α → Prop) (s : σ) : List α → Prop
  | [] => True
  | a :: as =>
    P s a ∧
      match step s a with
      | none => True
      | some t => Along step P t as

instance decidableAlong (step : σ → α → Option σ) (P : σ → α → Prop) [∀ s, DecidablePred (P s)] :
    ∀ (s : σ) (as : List α), Decidable (Along step P s as)
  | _, [] => isTrue trivial
  | s, a :: as =>
    have : Decidable (match step s a with
        | none => True
        | some t => Along step P t as) :=
      match step s a with
      | none => isTrue trivial
      | some t => decidableAlong step P t as
    inferInstanceAs (Decidable (P s a ∧ _))

variable {step : σ → α → Option σ} {P Q : σ → α → Prop}

theorem run_append (s : σ) (as bs : List α) :
    run step s (as ++ bs) = (run step s as).bind fun t => run step t bs := by
  induction as generalizing s with
  | nil => rfl
  | cons a as ih =>
    simp only [cons_append, run, ih, bind_assoc]

variable {as : List α} (Inv : σ → Prop)

theorem Along.cons {s t : σ} {a : α} (h : P s a) (heq : step s a = some t)
    (hrest : Along step P t as) : Along step P s (a :: as) := by
  refine ⟨h, ?_⟩
  rw [heq]
  exact hrest

theorem Along.of_forall (hall : ∀ s a, P s a) : ∀ s : σ, Along step P s as := by
  induction as with
  | nil => exact fun _ => trivial
  | cons a as ih =>
    intro s
    refine ⟨hall s a, ?_⟩
    split
    · trivial
    · next t _ => exact ih t

theorem Along.imp (himp : ∀ s, ∀ a ∈ as, P s a → Q s a) :
    ∀ {s : σ}, Along step P s as → Along step Q s as := by
  induction as with
  | nil => exact fun h => h
  | cons a as ih =>
    intro s h
    refine ⟨himp s a (mem_cons_self ..) h.1, ?_⟩
    have hrest := h.2
    split
    · trivial
    · next t heq =>
      rw [heq] at hrest
      exact ih (fun s b hb => himp s b (mem_cons_of_mem _ hb)) hrest

theorem Along.and : ∀ {s : σ}, Along step P s as → Along step Q s as →
    Along step (fun s a => P s a ∧ Q s a) s as := by
  induction as with
  | nil => exact fun _ _ => trivial
  | cons a as ih =>
    intro s hP hQ
    refine ⟨⟨hP.1, hQ.1⟩, ?_⟩
    have hP' := hP.2
    have hQ' := hQ.2
    split
    · trivial
    · next t heq =>
      rw [heq] at hP' hQ'
      exact ih hP' hQ'

theorem Along.invariant
    (hstep : ∀ s a t, Inv s → P s a → step s a = some t → Inv t) :
    ∀ {s : σ}, Inv s → Along step P s as → Along step (fun s a => Inv s ∧ P s a) s as := by
  induction as with
  | nil => exact fun _ _ => trivial
  | cons a as ih =>
    intro s h hP
    refine ⟨⟨h, hP.1⟩, ?_⟩
    have hrest := hP.2
    split
    · trivial
    · next t heq =>
      rw [heq] at hrest
      exact ih (hstep s a t h hP.1 heq) hrest

theorem Along.iff_of_invariant (hiff : ∀ s a, Inv s → (P s a ↔ Q s a))
    (hstep : ∀ s a t, Inv s → Q s a → step s a = some t → Inv t) :
    ∀ {s : σ}, Inv s → (Along step P s as ↔ Along step Q s as) := by
  induction as with
  | nil => exact fun _ => Iff.rfl
  | cons a as ih =>
    intro s h
    unfold Along
    rw [hiff s a h]
    refine and_congr_right fun hQ => ?_
    split
    · rfl
    · next t heq => exact ih (hstep s a t h hQ heq)

/-- An invariant that every step keeps holds after every run, and the run does not stop. -/
theorem run_of_invariant
    (hstep : ∀ s a, Inv s → P s a → ∃ t, step s a = some t ∧ Inv t) :
    ∀ {s : σ}, Inv s → Along step P s as → ∃ t, run step s as = some t ∧ Inv t := by
  induction as with
  | nil => exact fun {s} h _ => ⟨s, rfl, h⟩
  | cons a as ih =>
    intro s h hP
    obtain ⟨t, heq, ht⟩ := hstep s a h hP.1
    have hrest := hP.2
    rw [heq] at hrest
    obtain ⟨u, hrun, hu⟩ := ih ht hrest
    refine ⟨u, ?_, hu⟩
    rw [run, heq]
    exact hrun

/-- An invariant that every step keeps where it is defined holds in the state a run reaches. -/
theorem invariant_of_run
    (hstep : ∀ s a t, Inv s → P s a → step s a = some t → Inv t) :
    ∀ {s t : σ}, Inv s → Along step P s as → run step s as = some t → Inv t := by
  induction as with
  | nil =>
    intro s t h _ hrun
    cases hrun
    exact h
  | cons a as ih =>
    intro s t h hP hrun
    rw [run, bind_eq_some_iff] at hrun
    obtain ⟨u, heq, hrun⟩ := hrun
    have hrest := hP.2
    rw [heq] at hrest
    exact ih (hstep s a u h hP.1 heq) hrest hrun

/-- Where a step keeps the invariant under the condition `P`, and makes `Good` fail without it, the
runs that stay in `Good` are those whose steps all meet the condition. -/
theorem stays_iff_along (Inv Good : σ → Prop) (hgood : ∀ s, Inv s → Good s)
    (hkeep : ∀ s a t, Inv s → P s a → step s a = some t → Inv t)
    (hbreak : ∀ s a t, Inv s → ¬P s a → step s a = some t → ¬Good t) :
    ∀ {s u : σ}, Inv s → run step s as = some u →
      ((∀ n t, run step s (as.take n) = some t → Good t) ↔ Along step P s as) := by
  induction as with
  | nil =>
    intro s u hs _
    refine iff_of_true ?_ trivial
    intro n t hrun
    rw [take_nil] at hrun
    cases hrun
    exact hgood s hs
  | cons a as ih =>
    intro s u hs hrun
    rw [run, bind_eq_some_iff] at hrun
    obtain ⟨t, heq, hrun⟩ := hrun
    have htail : ∀ n, run step s ((a :: as).take (n + 1)) = run step t (as.take n) := by
      intro n
      rw [take_succ_cons, run, heq]
      rfl
    unfold Along
    rw [heq]
    constructor
    · intro hall
      have ht := hall 1 t (by rw [htail, take_zero, run])
      have hp : P s a := Classical.not_not.mp fun hnot => hbreak s a t hs hnot heq ht
      refine ⟨hp, (ih (hkeep s a t hs hp heq) hrun).mp ?_⟩
      intro n v hv
      exact hall (n + 1) v (by rw [htail, hv])
    · rintro ⟨hp, hrest⟩ n v hv
      cases n with
      | zero =>
        cases hv
        exact hgood s hs
      | succ n =>
        rw [htail] at hv
        exact (ih (hkeep s a t hs hp heq) hrun).mpr hrest n v hv

/-- Where a step keeps `Good` exactly under the condition `P`, the runs that stay in `Good` are
those whose steps all meet the condition. -/
theorem always_iff_along (Inv Good : σ → Prop)
    (hinv : ∀ s a t, Inv s → step s a = some t → Inv t)
    (hgood : ∀ s a t, Inv s → Good s → step s a = some t → (Good t ↔ P s a))
    {s u : σ} (hi : Inv s) (hs : Good s) (hrun : run step s as = some u) :
    (∀ n t, run step s (as.take n) = some t → Good t) ↔ Along step P s as := by
  apply stays_iff_along (fun s => Inv s ∧ Good s) Good (fun _ h => h.2) _ _ ⟨hi, hs⟩ hrun
  · intro s a t h hp heq
    exact ⟨hinv s a t h.1 heq, (hgood s a t h.1 h.2 heq).mpr hp⟩
  · intro s a t h hp heq
    exact mt (hgood s a t h.1 h.2 heq).mp hp

end Sglang.Lib
