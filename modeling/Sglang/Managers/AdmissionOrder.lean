import Mathlib.Data.List.Sort
import Sglang.Lib.Runs
import Sglang.Managers.PrefillAdder

/-!
# The Order of the Admission List

The scan of `addOneReqIgnoreEos` takes `req_states` for the order in which requests end. The first
call sorts the list. A later call inserts into it, and its loop has no case for a request that ends
last: such a request is put before the last entry and not behind it.

- `sorted_insert_iff`: when one insertion keeps the order,
- `scans_sorted_iff`: over all calls of a pass, every scan reads a sorted list exactly when no call
  enters a request that ends later than all before it.
-/

namespace Sglang.Managers.PrefillAdder

open List
open Lib

variable {α T N R : Type}

section Insertion

variable [LinearOrder α]

/-- The entries are in the order in which the requests end. -/
def InOrder (states : List (α × Int)) : Prop := states.Pairwise (fun x y => x.1 ≤ y.1)

instance decidableInOrder (states : List (α × Int)) : Decidable (InOrder states) :=
  inferInstanceAs (Decidable (states.Pairwise _))

/-- No entry ends before the last one does. -/
def EndsByLast (left : α) (states : List (α × Int)) : Prop :=
    ∀ last ∈ states.getLast?, left ≤ last.1

instance decidableEndsByLast (left : α) (states : List (α × Int)) : Decidable
    (EndsByLast left states) :=
  inferInstanceAs (Decidable (∀ last ∈ states.getLast?, _))

/-! ## Section 1: One insertion -/

theorem le_getLast {x : α × Int} {rest : List (α × Int)} (h : InOrder (x :: rest)) :
    ∀ last ∈ (x :: rest).getLast?, x.1 ≤ last.1 := by
  intro last hlast
  rcases mem_cons.mp (mem_of_getLast? hlast) with rfl | hin
  · exact le_rfl
  · exact rel_of_pairwise_cons h hin

theorem le_of_mem_insert {x : α × Int} {left : α} {occupied : Int} {rest : List (α × Int)} {i : Nat}
    (h : InOrder (x :: rest)) (hlt : x.1 < left) :
    ∀ y ∈ rest.insertIdx i (left, occupied), x.1 ≤ y.1 := by
  intro y hy
  rcases Nat.lt_or_ge rest.length i with hout | hin
  · rw [insertIdx_of_length_lt hout] at hy
    exact rel_of_pairwise_cons h hy
  · rcases (mem_insertIdx hin).mp hy with rfl | hmem
    · exact hlt.le
    · exact rel_of_pairwise_cons h hmem

/-- Inserting into an ordered list keeps the order exactly when the request does not end last. -/
theorem sorted_insert_iff {left : α} {occupied : Int} {states : List (α × Int)}
    (h : InOrder states) :
    InOrder (states.insertIdx (insertIndex left states) (left, occupied)) ↔
    EndsByLast left states := by
  induction states with
  | nil => simp [insertIndex, InOrder, EndsByLast]
  | cons x rest ih =>
    cases rest with
    | nil => simp [insertIndex, InOrder, EndsByLast]
    | cons y rest =>
      by_cases hle : left ≤ x.1
      · have hends : EndsByLast left (x :: y :: rest) :=
          fun last hlast => hle.trans (le_getLast h last hlast)
        rw [insertIndex, if_pos hle, insertIdx_zero]
        refine iff_of_true (List.Pairwise.cons ?_ h) hends
        intro z hz
        rcases mem_cons.mp hz with rfl | hin
        · exact hle
        · exact hle.trans (rel_of_pairwise_cons h hin)
      · -- the loop goes on, and the last entry is that of the rest
        rw [insertIndex, if_neg hle, insertIdx_succ_cons]
        have htail := ih h.tail
        have hlast : EndsByLast left (x :: y :: rest) ↔ EndsByLast left (y :: rest) := by
          unfold EndsByLast
          rw [getLast?_cons_cons]
        rw [hlast, ← htail]
        exact ⟨List.Pairwise.tail, List.Pairwise.cons (le_of_mem_insert h (not_le.mp hle))⟩

end Insertion

/-! ## Section 2: All calls of a pass -/

variable [BudgetNumber α]

/-- One call of `add_one_req_ignore_eos`, with the cache and the pools as it finds them. -/
structure AdmitCall (T N : Type) where
  tree : T
  req : Req N
  delayed : Bool := false

section Calls

variable (cfg : AdderConfig α N) (C : TreeCache T N R)

def admitStep (a : PrefillAdder α N) (call : AdmitCall T N) : Option (PrefillAdder α N) :=
  some (addOneReqIgnoreEos cfg C a call.tree call.req call.delayed).1

/-- If the call scans, the list it reads is in order. -/
def ScansInOrder (a : PrefillAdder α N) (call : AdmitCall T N) : Prop :=
  ∀ states, scannedReqStates cfg C a call.tree call.req = some states → InOrder states

/-- If the call enters its request into a list that the scan will read, the request ends no later
than the last one of the list. -/
def EntersInOrder (a : PrefillAdder α N) (call : AdmitCall T N) : Prop :=
  cfg.isHybridSwa = false → ignoreEosFits cfg C a call.tree call.req = true →
    ((0 : Int) : α) < tokensLeft cfg call.req →
      ∀ states, a.reqStates = some states → EndsByLast (tokensLeft cfg call.req) states

/-- Where the scan runs, the list is in order between the calls. -/
def KeepsOrder (a : PrefillAdder α N) : Prop :=
  cfg.isHybridSwa = false → ∀ states, a.reqStates = some states → InOrder states

end Calls

variable {cfg : AdderConfig α N} {C : TreeCache T N R}

theorem inOrder_enterReqStates_first (cfg : AdderConfig α N) {a : PrefillAdder α N}
    (h : a.reqStates = none) (req : Req N) :
    InOrder (enterReqStates cfg a req) := by
  unfold enterReqStates
  rw [h]
  have htrans : ∀ x y z : α × Int, decide (x.1 ≤ y.1) = true → decide (y.1 ≤ z.1) = true →
      decide (x.1 ≤ z.1) = true := by
    intro x y z hxy hyz
    exact decide_eq_true ((of_decide_eq_true hxy).trans (of_decide_eq_true hyz))
  have htotal : ∀ x y : α × Int, (decide (x.1 ≤ y.1) || decide (y.1 ≤ x.1)) = true := by
    intro x y
    simpa using le_total x.1 y.1
  exact (pairwise_mergeSort htrans htotal _).imp fun hle => of_decide_eq_true hle

theorem inOrder_enterReqStates_iff (cfg : AdderConfig α N) {a : PrefillAdder α N}
    {states : List (α × Int)} (h : a.reqStates = some states) (hsorted : InOrder states)
    (req : Req N) :
    InOrder (enterReqStates cfg a req) ↔
      (((0 : Int) : α) < tokensLeft cfg req → EndsByLast (tokensLeft cfg req) states) := by
  unfold enterReqStates addReqState
  rw [h]
  by_cases hnone : tokensLeft cfg req ≤ ((0 : Int) : α)
  · simp only [if_pos hnone]
    exact iff_of_true hsorted fun hpos => absurd hnone (not_le.mpr hpos)
  · simp only [if_neg hnone, if_true]
    rw [sorted_insert_iff hsorted]
    exact ⟨fun hends _ => hends, fun hends => hends (not_le.mp hnone)⟩

theorem commitIgnoreEos_reqStates (a : PrefillAdder α N) (t : T) (req : Req N) :
    (commitIgnoreEos cfg C a t req).1.reqStates = a.reqStates := by
  unfold commitIgnoreEos
  cases cfg.dllmBlockSize with
  | some blockSize =>
    dsimp only
    split
    · rfl
    · exact commitRange_reqStates ..
  | none =>
    dsimp only
    split
    · exact commitRange_reqStates ..
    · split
      · rfl
      · split
        · rfl
        · exact commitRange_reqStates ..

theorem addOneReqIgnoreEos_reqStates (a : PrefillAdder α N) (t : T) (req : Req N) (delayed : Bool) :
    (addOneReqIgnoreEos cfg C a t req delayed).1.reqStates =
      if ignoreEosFits cfg C a t req = true then some (enterReqStates cfg a req)
        else a.reqStates := by
  unfold addOneReqIgnoreEos
  cases hfits : ignoreEosFits cfg C a t req with
  | false => rfl
  | true =>
    simp only [Bool.true_eq_false, if_false, if_true]
    split
    · rfl
    · split
      · rfl
      · exact commitIgnoreEos_reqStates _ t req

theorem scansInOrder_iff {a : PrefillAdder α N} (ha : KeepsOrder cfg a) (call : AdmitCall T N) :
    ScansInOrder cfg C a call ↔ EntersInOrder cfg C a call := by
  unfold ScansInOrder EntersInOrder scannedReqStates
  by_cases hswa : cfg.isHybridSwa = false
  · by_cases hfits : ignoreEosFits cfg C a call.tree call.req = true
    · rw [if_pos ⟨hfits, hswa⟩]
      cases hstates : a.reqStates with
      | none =>
        have hfirst := inOrder_enterReqStates_first cfg hstates call.req
        refine iff_of_true (fun states heq => ?_) fun _ _ _ states heq => nomatch heq
        cases heq
        exact hfirst
      | some states =>
        have hiff := inOrder_enterReqStates_iff cfg hstates (ha hswa states hstates) call.req
        constructor
        · intro hscan _ _ hpos states' heq
          cases heq
          exact hiff.mp (hscan _ rfl) hpos
        · intro henter states' heq
          cases heq
          exact hiff.mpr fun hpos => henter hswa hfits hpos states rfl
    · rw [if_neg fun h => hfits h.1]
      exact iff_of_true (fun states heq => nomatch heq) fun _ hfits' => absurd hfits' hfits
  · rw [if_neg fun h => hswa h.2]
    exact iff_of_true (fun states heq => nomatch heq) fun hswa' => absurd hswa' hswa

theorem keepsOrder_step {a b : PrefillAdder α N} {call : AdmitCall T N} (ha : KeepsOrder cfg a)
    (henter : EntersInOrder cfg C a call) (hstep : admitStep cfg C a call = some b) :
    KeepsOrder cfg b := by
  have hscan := (scansInOrder_iff ha call).mpr henter
  obtain rfl := Option.some.inj hstep
  intro hswa states heq
  rw [addOneReqIgnoreEos_reqStates] at heq
  split at heq
  · next hfits =>
    apply hscan
    rw [scannedReqStates, if_pos ⟨hfits, hswa⟩, heq]
  · exact ha hswa states heq

/-- In a pass that starts with no list, every scan reads an ordered list if and only if no call
enters a request that ends later than the last one of the list. -/
theorem scans_sorted_iff (cfg : AdderConfig α N) (C : TreeCache T N R) {a : PrefillAdder α N}
    (hnew : a.reqStates = none) (calls : List (AdmitCall T N)) :
    Along (admitStep cfg C) (ScansInOrder cfg C) a calls ↔
      Along (admitStep cfg C) (EntersInOrder cfg C) a calls := by
  apply Along.iff_of_invariant (KeepsOrder cfg) (fun _ call ha => scansInOrder_iff ha call)
    (fun _ _ _ ha henter hstep => keepsOrder_step ha henter hstep)
  intro _ states heq
  rw [hnew] at heq
  cases heq

/-! ## Section 3: Two requests -/

def plainConfig : AdderConfig Int Unit where
  pageSize := 1
  pageSize_pos := Nat.one_pos
  newTokenRatio := 1
  runningReqs := none

def plainAdder : PrefillAdder Int Unit :=
  PrefillAdder.init plainConfig 1000 none 0 none 0

def plainReq (rid : Nat) (maxNewTokens : Int) : Req Unit :=
  { rid, originInputLen := 10, outputLen := 0, fullLen := 10, prefixLen :=
    0, maxNewTokens, ignoreEos := true,
    lastNode := (), bestMatchNode := () }

/-- A request that ends before the one already entered. -/
theorem scans_sorted_earlier :
    plainAdder.reqStates = none ∧
      Along (admitStep plainConfig (chunkCache 1000))
      (ScansInOrder plainConfig (chunkCache 1000)) plainAdder
        [⟨(), plainReq 0 9, false⟩, ⟨(), plainReq 1 5, false⟩] := by
  refine ⟨rfl, (scans_sorted_iff plainConfig (chunkCache 1000) rfl _).mpr ⟨?_, ?_, trivial⟩⟩
  · intro _ _ _ states heq
    cases heq
  · have hstates : (addOneReqIgnoreEos plainConfig (chunkCache 1000) plainAdder ()
      (plainReq 0 9) false).1.reqStates = some [(9, 10)] := by decide +kernel
    intro _ _ _ states heq
    rw [hstates] at heq
    obtain rfl := Option.some.inj heq
    decide

/-- A request that ends after the one already entered is put before it, and the scan reads it
first. -/
theorem last_request_scanned_first :
    plainAdder.reqStates = none ∧
      scannedReqStates plainConfig (chunkCache 1000)
          (addOneReqIgnoreEos plainConfig (chunkCache 1000) plainAdder () (plainReq 0 5) false).1 ()
          (plainReq 1 9) =
        some [(9, 10), (5, 10)] ∧
      ¬Along (admitStep plainConfig (chunkCache 1000))
      (ScansInOrder plainConfig (chunkCache 1000)) plainAdder
        [⟨(), plainReq 0 5, false⟩, ⟨(), plainReq 1 9, false⟩] := by
  have hscan : scannedReqStates plainConfig (chunkCache 1000)
      (addOneReqIgnoreEos plainConfig (chunkCache 1000) plainAdder () (plainReq 0 5) false).1 ()
      (plainReq 1 9) = some [(9, 10), (5, 10)] := by decide +kernel
  refine ⟨rfl, hscan, fun hall => ?_⟩
  have hsecond := hall.2.1 _ hscan
  exact absurd hsecond (by decide)

end Sglang.Managers.PrefillAdder
