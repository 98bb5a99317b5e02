import Mathlib.Data.List.Induction

/-!
# Results of the Reasoning Parsers

`StreamingParseResult` (`parser/reasoning_parser.py`), and the results of a stream of chunks.
-/

namespace Sglang.Parser

open List

/-- `StreamingParseResult`. -/
structure ParseResult where
  reasoningText : List Char
  normalText : List Char
deriving DecidableEq

namespace ParseResult

def append (r s : ParseResult) : ParseResult :=
  ⟨r.reasoningText ++ s.reasoningText, r.normalText ++ s.normalText⟩

def empty : ParseResult := ⟨[], []⟩

theorem append_assoc (r s u : ParseResult) : (r.append s).append u = r.append (s.append u) := by
  simp [append]

theorem empty_append (r : ParseResult) : empty.append r = r := rfl

theorem append_empty (r : ParseResult) : r.append empty = r := by
  simp [append, empty]

def size (r : ParseResult) : Nat := r.reasoningText.length + r.normalText.length

@[simp] theorem size_append (r s : ParseResult) : (r.append s).size = r.size + s.size := by
  simp only [append, size, length_append]
  omega

end ParseResult

/-- The results of a detector over the chunks of a stream, one after the other. -/
def streamChunks {σ : Type*} (parse : σ → List Char → σ × ParseResult) (d : σ) :
    List (List Char) → σ × ParseResult
  | [] => (d, .empty)
  | chunk :: chunks =>
    let next := parse d chunk
    let rest := streamChunks parse next.1 chunks
    (rest.1, next.2.append rest.2)

theorem streamChunks_append {σ : Type*} (parse : σ → List Char → σ × ParseResult)
    (xs ys : List (List Char)) : ∀ d : σ, streamChunks parse d (xs ++ ys) =
      ((streamChunks parse (streamChunks parse d xs).1 ys).1,
        (streamChunks parse d xs).2.append
          (streamChunks parse (streamChunks parse d xs).1 ys).2) := by
  induction xs with
  | nil => exact fun d => rfl
  | cons x xs ih =>
    intro d
    simp only [cons_append, streamChunks, ih, ParseResult.append_assoc]

theorem streamChunks_states {σ : Type*} {parse : σ → List Char → σ × ParseResult}
    (state : List Char → σ) (out : List Char → ParseResult) {P : List Char → Prop}
    (hP : ∀ t x, P (t ++ x) → P t)
    (hstep : ∀ t x, P (t ++ x) →
      ∃ r, parse (state t) x = (state (t ++ x), r) ∧ (out t).append r = out (t ++ x))
    (xs : List (List Char)) : ∀ t, P (t ++ xs.flatten) →
      ∃ r, streamChunks parse (state t) xs = (state (t ++ xs.flatten), r) ∧
        (out t).append r = out (t ++ xs.flatten) := by
  induction xs with
  | nil =>
    intro t _
    refine ⟨.empty, ?_, ?_⟩
    · simp [streamChunks]
    · simp [ParseResult.append_empty]
  | cons x xs ih =>
    intro t ht
    rw [flatten_cons, ← List.append_assoc] at ht
    obtain ⟨r, hparse, hr⟩ := hstep t x (hP _ _ ht)
    obtain ⟨s, hrest, hs⟩ := ih (t ++ x) ht
    refine ⟨r.append s, ?_, ?_⟩
    · simp [streamChunks, hparse, hrest]
    · rw [← ParseResult.append_assoc, hr, hs]
      simp

theorem exists_first_chunk {Q : List Char → Prop} {t : List Char} (hstart : ¬ Q t)
    {chunks : List (List Char)} (hall : Q (t ++ chunks.flatten)) :
    ∃ before chunk after, chunks = before ++ chunk :: after ∧ ¬ Q (t ++ before.flatten) ∧
      Q (t ++ before.flatten ++ chunk) := by
  induction chunks using List.reverseRecOn with
  | nil => exact absurd (by simpa using hall) hstart
  | append_singleton chunks c ih =>
    by_cases hQ : Q (t ++ chunks.flatten)
    · obtain ⟨before, chunk, after, rfl, hno, hyes⟩ := ih hQ
      exact ⟨before, chunk, after ++ [c], by simp, hno, hyes⟩
    · refine ⟨chunks, c, [], rfl, hQ, ?_⟩
      simpa using hall

theorem first_chunk_unique {Q : List Char → Prop} (hkeep : ∀ t x, Q t → Q (t ++ x)) {t : List Char}
    {before before' after after' : List (List Char)} {chunk chunk' : List Char}
    (hno : ¬ Q (t ++ before.flatten)) (hyes : Q (t ++ before.flatten ++ chunk))
    (hno' : ¬ Q (t ++ before'.flatten)) (hyes' : Q (t ++ before'.flatten ++ chunk'))
    (heq : before ++ chunk :: after = before' ++ chunk' :: after') :
    before = before' ∧ chunk = chunk' ∧ after = after' := by
  rcases append_eq_append_iff.mp heq with ⟨x, hx, hrest⟩ | ⟨x, hx, hrest⟩
  · cases x with
    | nil =>
      rw [nil_append, List.cons.injEq] at hrest
      rw [append_nil] at hx
      exact ⟨hx.symm, hrest⟩
    | cons y x =>
      rw [cons_append, List.cons.injEq] at hrest
      refine absurd (hkeep _ x.flatten hyes) ?_
      rw [hx, ← hrest.1] at hno'
      simpa using hno'
  · cases x with
    | nil =>
      rw [nil_append, List.cons.injEq] at hrest
      rw [append_nil] at hx
      exact ⟨hx, hrest.1.symm, hrest.2.symm⟩
    | cons y x =>
      rw [cons_append, List.cons.injEq] at hrest
      refine absurd (hkeep _ x.flatten hyes') ?_
      rw [hx, ← hrest.1] at hno
      simpa using hno

end Sglang.Parser
