import Mathlib.Data.List.Perm.Subperm
import Mathlib.Data.List.Sort
import Mathlib.Algebra.Order.BigOperators.Group.List
import Mathlib.Tactic
import Sglang.Gateway.Bucket
import Sglang.Lib.IntervalTiling
import Sglang.Lib.Runs

/-!
# The Bucket Policy Keeps Its Partition and Its Books

The boundaries and the load counter of the bucket policy over every run of its operations.

- `evenSplit_spec`, `sweep_spec`: what the two algorithms for the boundaries return,
- `findBoundary_spec`: the bisection over boundaries that tile `usize`,
- `Inv`, `step_inv`: what each operation keeps,
- `sound_of_fine`: every run whose steps are fine keeps partition and books,
- `boundary_outlives_last_worker`: a run that does not.
-/

namespace Sglang.Gateway

open List Function
open Lib

theorem usizeAdd_eq {a b : Nat} (h : a + b ≤ usizeMax) : usizeAdd a b = some (a + b) := if_pos h

theorem usizeSub_eq {a b : Nat} (h : b ≤ a) : usizeSub a b = some (a - b) := if_pos h

theorem usizeMul_eq {a b : Nat} (h : a * b ≤ usizeMax) : usizeMul a b = some (a * b) := if_pos h

def Boundary.Contains (e : Boundary) (c : Nat) : Prop := e.range.1 ≤ c ∧ c ≤ e.range.2

namespace Bucket

/-! ## Section 1: The even split -/

theorem evenSplit_spec {workerCnt gap : Nat} (hgap : 1 ≤ gap) (hfit : workerCnt * gap ≤ usizeMax) :
    ∀ (urls : List String) {i : Nat}, i + urls.length = workerCnt →
      ∃ l, evenSplit workerCnt gap usizeMax i urls = some l ∧ l.map Boundary.url = urls ∧
        (urls ≠ [] → Tiles usizeMax (i * gap) (l.map Boundary.range)) := by
  intro urls
  induction urls with
  | nil => exact fun _ => ⟨[], rfl, rfl, fun h => absurd rfl h⟩
  | cons url urls ih =>
    intro i hi
    rw [length_cons] at hi
    have hmin : i * gap ≤ usizeMax := (Nat.mul_le_mul_right gap (by omega)).trans hfit
    by_cases hlast : i = workerCnt - 1
    · have hnil : urls = [] := length_eq_zero_iff.mp (by omega)
      subst hnil
      refine ⟨[⟨url, (i * gap, usizeMax)⟩], ?_, rfl, fun _ => .last hmin⟩
      simp only [evenSplit, usizeMul_eq hmin, if_pos hlast, Option.bind_eq_bind, Option.bind_some]
    · have hmax : (i + 1) * gap ≤ usizeMax := (Nat.mul_le_mul_right gap (by omega)).trans hfit
      have hpos : 1 ≤ (i + 1) * gap := Nat.mul_pos (Nat.succ_pos i) hgap
      have hne : urls ≠ [] := by
        intro hnil
        rw [hnil, length_nil] at hi
        omega
      obtain ⟨l, heq, hurls, htiles⟩ := ih (i := i + 1) (by omega)
      refine ⟨⟨url, (i * gap, (i + 1) * gap - 1)⟩ :: l, ?_, ?_, ?_⟩
      · simp only [evenSplit, usizeMul_eq hmin, usizeMul_eq hmax, usizeSub_eq hpos, if_neg hlast,
          Option.bind_eq_bind, Option.bind_some, heq]
      · rw [map_cons, hurls]
      · intro _
        rw [map_cons]
        refine .cons ?_ ?_
        · rw [Nat.add_one_mul]
          omega
        · rw [Nat.sub_add_cancel hpos]
          exact htiles hne

theorem evenSplit_overflow {workerCnt lMax : Nat} (url url' : String) (urls : List String)
    (hcnt : 2 ≤ workerCnt) : evenSplit workerCnt 0 lMax 0 (url :: url' :: urls) = none := by
  have hlast : ¬ 0 = workerCnt - 1 := by omega
  simp only [evenSplit, if_neg hlast, usizeMul, usizeSub, Nat.mul_zero, Nat.zero_le, if_true,
    Option.bind_eq_bind, Option.bind_some]
  rfl

/-! ## Section 2: The sweep -/

theorem fill_spec (single : Nat) : ∀ (loads : List Nat) (acc : Nat), acc + loads.sum ≤ usizeMax →
    ∃ full rest, fill single acc loads = some (full, rest) ∧ rest <:+ loads ∧
      ∀ load, full = some load → load ∈ loads := by
  intro loads
  induction loads with
  | nil => exact fun _ _ => ⟨none, [], rfl, suffix_rfl, fun _ h => by cases h⟩
  | cons load loads ih =>
    intro acc hsum
    rw [sum_cons] at hsum
    simp only [fill, usizeAdd_eq (show acc + load ≤ usizeMax by omega), Option.bind_eq_bind,
      Option.bind_some]
    by_cases hfull : single ≤ acc + load
    · rw [if_pos hfull]
      refine ⟨some load, loads, rfl, suffix_cons load loads, ?_⟩
      intro x hx
      cases hx
      exact mem_cons_self
    · rw [if_neg hfull]
      obtain ⟨full, rest, heq, hrest, hmem⟩ := ih (acc + load) (by omega)
      exact ⟨full, rest, heq, hrest.trans (suffix_cons load loads),
        fun x hx => mem_cons_of_mem load (hmem x hx)⟩

theorem sweep_last {single upperBound : Nat} {loads : List Nat} (url : String)
    (hsum : loads.sum ≤ usizeMax) (hadd : upperBound + single ≤ usizeMax) :
    sweep single upperBound loads [url] = some [⟨url, (upperBound, usizeMax)⟩] := by
  cases loads with
  | nil => rfl
  | cons load loads =>
    obtain ⟨full, rest, heq, _⟩ := fill_spec single (load :: loads) 0 (by omega)
    cases full with
    | some full => simp only [sweep, heq, Option.bind_eq_bind, Option.bind_some, if_true]
    | none =>
      simp only [sweep, heq, usizeAdd_eq hadd, Option.bind_eq_bind, Option.bind_some, if_true]

/-- The next range goes on where the last one ended. `bound` is above the lower bound and above
every load, and leaves room for the loads that the other workers are to take. -/
theorem sweep_spec (single : Nat) : ∀ (urls : List String) (upperBound bound : Nat)
    (loads : List Nat), urls ≠ [] → upperBound ≤ bound →
    (∀ load ∈ loads, load + 1 ≤ bound) → loads.sum ≤ usizeMax →
    bound + urls.length * (single + 1) ≤ usizeMax + 1 →
    ∃ l, sweep single upperBound loads urls = some l ∧ l.map Boundary.url = urls ∧
      Tiles usizeMax upperBound (l.map Boundary.range) := by
  intro urls
  induction urls with
  | nil => exact fun _ _ _ h => absurd rfl h
  | cons url urls ih =>
    intro upperBound bound loads _ hupper hloads hsum hroom
    rw [length_cons, Nat.add_one_mul] at hroom
    have hadd : upperBound + single ≤ usizeMax := by omega
    cases urls with
    | nil =>
      exact ⟨_, sweep_last url hsum hadd, rfl, .last (by omega)⟩
    | cons url' urls =>
      obtain ⟨full, rest, heq, hrest, hfull⟩ := fill_spec single loads 0 (by omega)
      -- the next range starts below the bound that is left for the other workers
      have hnext : ∀ next, upperBound < next → next ≤ bound + (single + 1) →
          ∃ l, sweep single next rest (url' :: urls) = some l ∧
            (⟨url, (upperBound, next - 1)⟩ :: l).map Boundary.url = url :: url' :: urls ∧
            Tiles usizeMax upperBound
              ((⟨url, (upperBound, next - 1)⟩ :: l : List Boundary).map Boundary.range) := by
        intro next hlt hle
        obtain ⟨l, hl, hurls, htiles⟩ := ih next (bound + (single + 1)) rest
          (cons_ne_nil _ _) hle
          (fun load hload => (hloads load (hrest.subset hload)).trans (Nat.le_add_right _ _))
          (hrest.sublist.sum_le_sum (fun _ _ => Nat.zero_le _) |>.trans hsum) (by omega)
        refine ⟨l, hl, by rw [map_cons, hurls], ?_⟩
        rw [map_cons]
        refine .cons (by omega) ?_
        rw [Nat.sub_add_cancel (by omega)]
        exact htiles
      have hcons : ¬ (url' :: urls) = [] := cons_ne_nil _ _
      have hlen : 1 * (single + 1) ≤ (url' :: urls).length * (single + 1) :=
        Nat.mul_le_mul_right _ (Nat.succ_le_of_lt (length_pos_of_ne_nil hcons))
      cases full with
      | some load =>
        have hload := hloads load (hfull load rfl)
        have htop : (if load ≤ upperBound then upperBound + single else load) + 1 ≤
            bound + (single + 1) := by
          split <;> omega
        obtain ⟨l, hl, hurls, htiles⟩ := hnext
          ((if load ≤ upperBound then upperBound + single else load) + 1) (by split <;> omega) htop
        refine ⟨_, ?_, hurls, htiles⟩
        simp only [sweep, heq, usizeAdd_eq hadd, hcons, if_false, Option.bind_eq_bind,
          Option.bind_some]
        rw [usizeAdd_eq (by omega)]
        simp only [hl, Option.bind_some, Nat.add_sub_cancel]
      | none =>
        obtain ⟨l, hl, hurls, htiles⟩ := hnext (upperBound + single + 1) (by omega) (by omega)
        refine ⟨_, ?_, hurls, htiles⟩
        simp only [sweep, heq, usizeAdd_eq hadd, hcons, if_false, Option.bind_eq_bind,
          Option.bind_some]
        rw [usizeAdd_eq (by omega)]
        simp only [hl, Option.bind_some, Nat.add_sub_cancel]

/-! ## Section 3: The search -/

/-- Over boundaries that tile `usize`, every length has one range, and the search finds it. -/
theorem findBoundary_spec {b : Bucket} (h : Tiles usizeMax 0 (b.boundary.map Boundary.range))
    {c : Nat} (hc : c ≤ usizeMax) :
    ∃ e ∈ b.boundary, e.Contains c ∧ b.findBoundary c = some e.url ∧
      ∀ e' ∈ b.boundary, e'.Contains c → e' = e := by
  have hat : ∀ {i : Nat} {e : Boundary}, b.boundary[i]? = some e →
      (b.boundary.map Boundary.range)[i]? = some e.range := by
    intro i e hi
    rw [getElem?_map, hi]
    rfl
  obtain ⟨k, r, hk, hr⟩ := h.exists_index (Nat.zero_le c) hc
  rw [getElem?_map, Option.map_eq_some_iff] at hk
  obtain ⟨e, hk, rfl⟩ := hk
  have hbelow : ∀ {j : Nat} {e' : Boundary}, j < k → b.boundary[j]? = some e' → e'.range.2 < c := by
    intro j e' hj hj'
    exact lt_of_lt_of_le (h.ordered hj (hat hj') (hat hk)) hr.1
  have habove : ∀ {j : Nat} {e' : Boundary}, k < j → b.boundary[j]? = some e' → c < e'.range.1 := by
    intro j e' hj hj'
    exact lt_of_le_of_lt hr.2 (h.ordered hj (hat hk) (hat hj'))
  have hlt : k < b.boundary.length := (List.getElem?_eq_some_iff.mp hk).1
  have hfound : bisect (b.side c) (b.boundary.length + 1) 0 b.boundary.length = some k := by
    apply bisect_eq_some _ _ _ (Nat.zero_le k) hlt (by omega)
    · have h1 : ¬ c < e.range.1 := by omega
      have h2 : ¬ c > e.range.2 := by omega
      simp only [side, hk, if_neg h1, if_neg h2]
    · intro j hj
      have hj' := getElem?_eq_getElem (hj.trans hlt)
      have hgt := hbelow hj hj'
      have hle := (h.start_le (hat hj')).2
      have h1 : ¬ c < b.boundary[j].range.1 := by omega
      simp only [side, hj', if_neg h1, gt_iff_lt, if_pos hgt]
    · intro j hj
      cases hj' : b.boundary[j]? with
      | none => simp only [side, hj']
      | some e' => simp only [side, hj', if_pos (habove hj hj')]
  refine ⟨e, mem_of_getElem? hk, hr, ?_, ?_⟩
  · simp only [findBoundary, hfound, Option.bind_some, hk, Option.map_some]
  · intro e' he' hin
    obtain ⟨j, hj⟩ := mem_iff_getElem?.mp he'
    have hjk : j = k := by
      rcases Nat.lt_trichotomy j k with hlt | heq | hgt
      · have := hbelow hlt hj
        have := hin.2
        omega
      · exact heq
      · have := habove hgt hj
        have := hin.1
        omega
    rw [hjk, hk] at hj
    exact (Option.some.inj hj).symm

theorem findBoundary_nil {b : Bucket} (h : b.boundary = []) (c : Nat) :
    b.findBoundary c = none := by
  simp only [findBoundary, h, length_nil, bisect_self, Option.bind_none]

/-! ## Section 4: The books -/

/-- An entry of the request list, as `t_req_loads` has it. -/
def loadEntry (req : SequencerRequest) : String × Nat := (req.id, req.charCnt)

theorem subperm_remove (kept : List SequencerRequest) : ∀ {removed : List SequencerRequest}
    {loads : Counts}, loads.Subperm ((removed ++ kept).map loadEntry) →
      (removed.foldl (fun m req => m.remove req.id) loads).Subperm (kept.map loadEntry) := by
  intro removed
  induction removed with
  | nil => exact fun h => h
  | cons req removed ih =>
    intro loads h
    rw [foldl_cons]
    apply ih
    have hfilter := h.filter fun e => decide (e.1 ≠ req.id)
    rw [cons_append, map_cons, filter_cons_of_neg (by simp [loadEntry])] at hfilter
    exact hfilter.trans filter_sublist.subperm

theorem values_sum_le {loads : Counts} {requests : List SequencerRequest}
    (h : loads.Subperm (requests.map loadEntry)) : loads.values.sum ≤ charsOf requests := by
  obtain ⟨l, hperm, hsub⟩ := h
  have hsum : loads.values.sum = (l.map Prod.snd).sum := (hperm.symm.map Prod.snd).sum_eq
  have hchars : charsOf requests = ((requests.map loadEntry).map Prod.snd).sum := by
    rw [map_map]
    rfl
  rw [hsum, hchars]
  exact (hsub.map Prod.snd).sum_le_sum fun _ _ => Nat.zero_le _

theorem charsOf_append (l l' : List SequencerRequest) : charsOf
    (l ++ l') = charsOf l + charsOf l' := by
  simp only [charsOf, map_append, sum_append]

theorem expired_append_kept (b : Bucket) (now : Nat) :
    b.expiredRequests now ++ b.keptRequests now = b.requestList := takeWhile_append_dropWhile

/-! ## Section 5: The invariant -/

/-- The counters count the requests of the list. -/
structure Booked (b : Bucket) : Prop where
  books : b.loadTotal = charsOf b.requestList
  total : b.loadTotal ≤ usizeMax
  loads : b.tReqLoads.Subperm (b.requestList.map loadEntry)
  single : 2 * b.bucketLoad ≤ usizeMax
  lMax : b.lMax ≤ usizeMax

/-- Besides, the boundaries tile `usize` in the order of the workers. -/
structure Inv (b : Bucket) : Prop extends Booked b where
  entries : b.boundary.map Boundary.url = b.prefillWorkerUrls
  nodup : b.prefillWorkerUrls.Nodup
  tiles : b.prefillWorkerUrls ≠ [] → Tiles usizeMax 0 (b.boundary.map Boundary.range)
  workers : b.prefillWorkerUrls.length ≤ b.lMax

theorem new_inv (period : Nat) : (new period).Inv where
  books := rfl
  total := Nat.zero_le _
  loads := List.Subperm.refl _
  single := Nat.zero_le _
  lMax := (show 4096 ≤ usizeMax by decide)
  entries := rfl
  nodup := nodup_nil
  tiles := fun h => absurd rfl h
  workers := Nat.zero_le _

/-- What an operation needs: distinct urls, no more of them than numbers to split, a last worker
that is not removed, and characters that fit in `usize` together, for an adjustment with room for
each worker. -/
def Fine (b : Bucket) : Op → Prop
  | .initPrefillWorkerUrls urls => urls.Nodup ∧ urls.length ≤ b.lMax
  | .addPrefillUrl url => url ∈ b.prefillWorkerUrls ∨ b.prefillWorkerUrls.length + 1 ≤ b.lMax
  | .removePrefillUrl url => b.prefillWorkerUrls = [] ∨ ∃ u ∈ b.prefillWorkerUrls, u ≠ url
  | .postProcessRequest charCnt _ now _ => charsOf (b.keptRequests now) + charCnt ≤ usizeMax
  | .adjustBoundary => 2 * b.loadTotal + b.prefillWorkerUrls.length ≤ usizeMax

instance (b : Bucket) : DecidablePred b.Fine
  | .initPrefillWorkerUrls _ => inferInstanceAs (Decidable (_ ∧ _))
  | .addPrefillUrl _ => inferInstanceAs (Decidable (_ ∨ _))
  | .removePrefillUrl _ => inferInstanceAs (Decidable (_ ∨ _))
  | .postProcessRequest .. => Nat.decLe _ _
  | .adjustBoundary => Nat.decLe _ _

variable {b : Bucket}

theorem initPrefillWorkerUrls_inv (h : b.Booked) {urls : List String} (hnodup : urls.Nodup)
    (hlen : urls.length ≤ b.lMax) : ∃ t, b.initPrefillWorkerUrls urls = some t ∧ t.Inv := by
  unfold initPrefillWorkerUrls
  by_cases hzero : urls.length = 0
  · have hnil := length_eq_zero_iff.mp hzero
    simp only [if_pos hzero]
    exact ⟨_, rfl, ⟨h.books, h.total, h.loads, h.single, h.lMax⟩, hnil.symm, hnodup,
      fun hne => absurd hnil hne, hlen⟩
  · have hpos : 0 < urls.length := Nat.pos_of_ne_zero hzero
    have hfit : urls.length * (b.lMax / urls.length) ≤ usizeMax :=
      (Nat.mul_div_le _ _).trans h.lMax
    obtain ⟨l, heq, hurls, htiles⟩ := evenSplit_spec (Nat.div_pos hlen hpos) hfit urls
      (Nat.zero_add _)
    simp only [if_neg hzero, heq, Option.bind_eq_bind, Option.bind_some]
    refine ⟨_, rfl, ⟨h.books, h.total, h.loads, h.single, le_refl _⟩, hurls, hnodup, fun hne => ?_,
      hlen.trans h.lMax⟩
    have hstart := htiles hne
    rw [Nat.zero_mul] at hstart
    exact hstart

theorem initPrefillWorkerUrls_eq_none (urls : List String) (hlMax : 1 ≤ b.lMax)
    (hlen : b.lMax < urls.length) : b.initPrefillWorkerUrls urls = none := by
  cases urls with
  | nil => exact absurd hlen (Nat.not_lt_zero _)
  | cons url urls =>
    cases urls with
    | nil => exact absurd hlen (Nat.not_lt_of_le hlMax)
    | cons url' rest =>
      have hgap : b.lMax / (url :: url' :: rest).length = 0 := Nat.div_eq_of_lt hlen
      have hne : ¬ (url :: url' :: rest).length = 0 := Nat.succ_ne_zero _
      have hcnt : 2 ≤ (url :: url' :: rest).length := Nat.le_add_left 2 rest.length
      simp only [initPrefillWorkerUrls, if_neg hne, hgap, Option.bind_eq_bind,
        evenSplit_overflow url url' rest hcnt, Option.bind_none]

theorem addPrefillUrl_inv (h : b.Inv) {url : String} (hfine : b.Fine (.addPrefillUrl url)) :
    ∃ t, b.addPrefillUrl url = some t ∧ t.Inv := by
  unfold addPrefillUrl
  by_cases hmem : url ∈ b.prefillWorkerUrls
  · simp only [if_pos hmem]
    exact initPrefillWorkerUrls_inv ⟨h.books, h.total, h.loads, h.single, h.lMax⟩ h.nodup h.workers
  · simp only [if_neg hmem]
    apply initPrefillWorkerUrls_inv ⟨h.books, h.total, h.loads, h.single, h.lMax⟩
    · rw [← concat_eq_append]
      exact h.nodup.concat hmem
    · rw [length_append, length_singleton]
      exact hfine.resolve_left hmem

theorem removePrefillUrl_inv (h : b.Inv) {url : String} (hfine : b.Fine (.removePrefillUrl url)) :
    ∃ t, b.removePrefillUrl url = some t ∧ t.Inv := by
  unfold removePrefillUrl
  rcases hfine with hnil | ⟨u, hu, hne⟩
  · simp only [hnil, filter_nil, length_nil, lt_irrefl, if_false]
    have hentries := h.entries
    rw [hnil] at hentries
    exact ⟨_, rfl, ⟨h.books, h.total, h.loads, h.single, h.lMax⟩, hentries, nodup_nil,
      fun hne => absurd rfl hne, Nat.zero_le _⟩
  · have hmem : u ∈ b.prefillWorkerUrls.filter fun v => decide (v ≠ url) :=
      mem_filter.mpr ⟨hu, decide_eq_true hne⟩
    simp only [length_pos_of_mem hmem, if_true]
    exact initPrefillWorkerUrls_inv ⟨h.books, h.total, h.loads, h.single, h.lMax⟩ (h.nodup.filter _)
      ((length_filter_le _ _).trans h.workers)

theorem postProcessRequest_inv (h : b.Inv) {charCnt now : Nat} {prefillUrl id : String}
    (hfine : b.Fine (.postProcessRequest charCnt prefillUrl now id)) :
    (b.postProcessRequest charCnt prefillUrl now id).Inv := by
  have hparts := expired_append_kept b now
  have hbooks := h.books
  have hsum := charsOf_append (b.expiredRequests now) (b.keptRequests now)
  rw [hparts] at hsum
  change charsOf (b.keptRequests now) + charCnt ≤ usizeMax at hfine
  refine ⟨⟨?_, Nat.min_le_right _ _, ?_, h.single, h.lMax⟩, h.entries, h.nodup, h.tiles, h.workers⟩
  · simp only [postProcessRequest, charsOf_append]
    have hnew : charsOf [⟨id, charCnt, now, prefillUrl⟩] = charCnt := Nat.add_zero charCnt
    have htotal := h.total
    rw [hnew, Nat.mod_eq_of_lt (by omega), min_eq_left (by omega)]
    omega
  · have hloads := h.loads
    rw [← hparts] at hloads
    have hremoved := subperm_remove (b.keptRequests now) hloads
    simp only [postProcessRequest, Counts.insert, Counts.remove, map_append]
    exact (filter_sublist.subperm.trans hremoved).append (List.Subperm.refl _)

theorem balanced_eq {new old : Nat} (hold : 2 * old ≤ usizeMax) (hnew : 2 * new ≤ usizeMax) :
    ∃ keep, balanced new old = some keep := by
  simp only [balanced, usizeMul_eq hold, usizeMul_eq hnew, Option.bind_eq_bind, Option.bind_some]
  split
  · exact ⟨_, rfl⟩
  · exact ⟨_, rfl⟩

theorem adjustBoundary_inv (h : b.Inv) (hfine : b.Fine .adjustBoundary) :
    ∃ t, b.adjustBoundary = some t ∧ t.Inv := by
  unfold adjustBoundary
  by_cases hloads : b.tReqLoads = []
  · simp only [if_pos hloads]
    exact ⟨b, rfl, h⟩
  simp only [if_neg hloads]
  have hinv : b.updateWorkersCnt.Inv :=
    ⟨⟨h.books, h.total, h.loads, h.single, h.lMax⟩, h.entries, h.nodup, h.tiles, h.workers⟩
  have hcnt : b.updateWorkersCnt.bucketCnt = b.updateWorkersCnt.prefillWorkerUrls.length := rfl
  have hroom : 2 * b.updateWorkersCnt.loadTotal + b.updateWorkersCnt.prefillWorkerUrls.length ≤
      usizeMax := hfine
  generalize b.updateWorkersCnt = s at hinv hcnt hroom ⊢
  by_cases hzero : s.bucketCnt = 0
  · simp only [if_pos hzero]
    exact ⟨s, rfl, hinv⟩
  rw [hcnt] at hzero
  simp only [hcnt, if_neg hzero]
  generalize hsingle : s.loadTotal / s.prefillWorkerUrls.length = new
  have hle : new ≤ s.loadTotal := hsingle ▸ Nat.div_le_self _ _
  have hnew : 2 * new ≤ usizeMax := by omega
  obtain ⟨keep, hbalanced⟩ := balanced_eq hinv.single hnew
  simp only [hbalanced, Option.bind_eq_bind, Option.bind_some]
  cases keep with
  | true => exact ⟨s, rfl, hinv⟩
  | false =>
    simp only [Bool.false_eq_true, if_false]
    have hsum : (s.tReqLoads.values.insertionSort (· ≤ ·)).sum ≤ s.loadTotal := by
      rw [(perm_insertionSort (· ≤ ·) s.tReqLoads.values).sum_eq, hinv.books]
      exact values_sum_le hinv.loads
    have hmul : s.prefillWorkerUrls.length * (new + 1) ≤
        s.loadTotal + s.prefillWorkerUrls.length := by
      rw [Nat.mul_add_one, ← hsingle]
      exact Nat.add_le_add_right (Nat.mul_div_le _ _) _
    have hbound : ∀ load ∈ s.tReqLoads.values.insertionSort (· ≤ ·),
        load + 1 ≤ s.loadTotal + 1 := by
      intro load hload
      have hpart := single_le_sum (fun _ _ => Nat.zero_le _) load hload
      omega
    obtain ⟨l, heq, hurls, htiles⟩ := sweep_spec new s.prefillWorkerUrls 0 (s.loadTotal + 1) _
      (fun hnil => hzero (by rw [hnil]; rfl)) (Nat.zero_le _) hbound
      (hsum.trans hinv.total) (by omega)
    simp only [heq, Option.bind_some]
    exact ⟨_, rfl, ⟨hinv.books, hinv.total, hinv.loads, hnew, hinv.lMax⟩, hurls, hinv.nodup,
      fun _ => htiles, hinv.workers⟩

theorem step_inv (h : b.Inv) {op : Op} (hfine : b.Fine op) : ∃ t, b.step op = some t ∧ t.Inv := by
  cases op with
  | initPrefillWorkerUrls urls =>
    exact initPrefillWorkerUrls_inv h.toBooked hfine.1 hfine.2
  | addPrefillUrl url => exact addPrefillUrl_inv h hfine
  | removePrefillUrl url => exact removePrefillUrl_inv h hfine
  | postProcessRequest charCnt prefillUrl now id => exact ⟨_, rfl, postProcessRequest_inv h hfine⟩
  | adjustBoundary => exact adjustBoundary_inv h hfine

/-! ## Section 6: Runs of the policy -/

/-- The boundaries and the load counter of a bucket are right. -/
structure Sound (b : Bucket) : Prop where
  entries : b.prefillWorkerUrls ≠ [] → b.boundary.map Boundary.url = b.prefillWorkerUrls
  tiles : b.prefillWorkerUrls ≠ [] → Tiles usizeMax 0 (b.boundary.map Boundary.range)
  found : b.prefillWorkerUrls ≠ [] → ∀ c ≤ usizeMax, ∃ e ∈ b.boundary, e.Contains c ∧
    b.findBoundary c = some e.url ∧ ∀ e' ∈ b.boundary, e'.Contains c → e' = e
  empty : b.prefillWorkerUrls = [] → ∀ c, b.findBoundary c = none
  books : b.loadTotal = charsOf b.requestList

theorem Inv.sound (h : b.Inv) : b.Sound where
  entries := fun _ => h.entries
  tiles := h.tiles
  found := fun hne _ hc => findBoundary_spec (h.tiles hne) hc
  empty := by
    intro hnil c
    have hentries := h.entries
    rw [hnil, map_eq_nil_iff] at hentries
    exact findBoundary_nil hentries c
  books := h.books

end Bucket

namespace BucketPolicy

/-- Whether an operation is fine for the bucket it works on. -/
def Fine (p : BucketPolicy) (op : String × Bucket.Op) : Prop :=
  ∀ b ∈ (p.buckets op.1).or (if opens op.2 then some (Bucket.new p.period) else none), b.Fine op.2

instance (p : BucketPolicy) : DecidablePred p.Fine := fun _ =>
  inferInstanceAs (Decidable (∀ b ∈ _, Bucket.Fine b _))

theorem step_inv {p : BucketPolicy} (h : ∀ model b, p.buckets model = some b → b.Inv)
    {op : String × Bucket.Op} (hfine : p.Fine op) :
    ∃ t, p.step op = some t ∧ ∀ model b, t.buckets model = some b → b.Inv := by
  cases hb : (p.buckets op.1).or (if opens op.2 then some (Bucket.new p.period) else none) with
  | none =>
    refine ⟨p, ?_, h⟩
    simp only [step]
    rw [hb]
  | some b =>
    have hinv : b.Inv := by
      cases hold : p.buckets op.1 with
      | some old =>
        rw [hold, Option.some_or, Option.some.injEq] at hb
        exact hb ▸ h op.1 old hold
      | none =>
        rw [hold, Option.none_or] at hb
        split at hb
        · cases hb
          exact Bucket.new_inv p.period
        · cases hb
    obtain ⟨t, heq, ht⟩ := Bucket.step_inv hinv (hfine b hb)
    refine ⟨{ p with buckets := update p.buckets op.1 (some t) }, ?_, ?_⟩
    · simp only [step]
      rw [hb]
      simp only [heq, Option.map_some]
    intro model b' hb'
    change update p.buckets op.1 (some t) model = some b' at hb'
    by_cases hmodel : model = op.1
    · subst hmodel
      rw [update_self, Option.some.injEq] at hb'
      exact hb' ▸ ht
    · rw [update_of_ne hmodel] at hb'
      exact h model b' hb'

/-- After every run of operations that are all fine, no arithmetic has gone wrong, the boundaries of
every model are a partition among its workers, and the books are right. -/
theorem sound_of_fine (period : Nat) (imbalanced : Nat → Nat → Bool) (unknownModelId : String)
    (ops : List (String × Bucket.Op))
    (h : Along step Fine (withConfig period imbalanced unknownModelId) ops) :
    ∃ t, run step (withConfig period imbalanced unknownModelId) ops = some t ∧
      ∀ model b, t.buckets model = some b → b.Sound := by
  obtain ⟨t, hrun, ht⟩ := run_of_invariant (fun p => ∀ model b, p.buckets model = some b → b.Inv)
    (fun p op hp hfine => step_inv hp hfine) (fun _ _ hb => by cases hb) h
  exact ⟨t, hrun, fun model b hb => (ht model b hb).sound⟩

/-- Two workers, a request, an adjustment, and one worker less. -/
def churn : List (String × Bucket.Op) :=
  [("m", .initPrefillWorkerUrls ["a", "b"]), ("m", .postProcessRequest 10 "a" 0 "r"),
    ("m", .adjustBoundary), ("m", .removePrefillUrl "a")]

theorem churn_sound : ∃ t, run step (withConfig 5000 (fun _ _ => false) "unknown") churn = some t ∧
    ∀ model b, t.buckets model = some b → b.Sound :=
  sound_of_fine 5000 (fun _ _ => false) "unknown" churn (by decide)

/-- The last worker is removed and still found, and a first list of more than 4096 workers has no
even split. -/
theorem boundary_outlives_last_worker :
    (∃ t b, run step (withConfig 5000 (fun _ _ => false) "unknown")
        [("m", .initPrefillWorkerUrls ["w"]), ("m", .removePrefillUrl "w")] = some t ∧
      t.buckets "m" = some b ∧ b.prefillWorkerUrls = [] ∧ b.findBoundary 0 = some "w") ∧
    ∃ urls : List String, urls.Nodup ∧
      run step (withConfig 5000 (fun _ _ => false) "unknown") [("m", .initPrefillWorkerUrls urls)] =
        none := by
  refine ⟨⟨_, _, rfl, rfl, rfl, rfl⟩, ?_⟩
  refine ⟨(List.range 4097).map fun i => String.ofList (List.replicate i 'w'), ?_, ?_⟩
  · apply List.Nodup.map _ nodup_range
    intro i j hij
    have hlist := congrArg (fun s : String => s.toList.length) hij
    simpa using hlist
  · have hnone := Bucket.initPrefillWorkerUrls_eq_none (b := Bucket.new 5000)
      ((List.range 4097).map fun i => String.ofList (List.replicate i 'w'))
      (show 1 ≤ 4096 by decide) (by
        rw [length_map, length_range]
        exact Nat.lt_succ_self 4096)
    have hstep : (withConfig 5000 (fun _ _ => false) "unknown").step
        ("m", .initPrefillWorkerUrls
          ((List.range 4097).map fun i => String.ofList (List.replicate i 'w'))) = none := by
      simp only [step, withConfig, opens, if_true, Option.none_or]
      rw [Bucket.step, hnone]
      rfl
    rw [run, hstep]
    rfl

end BucketPolicy
end Sglang.Gateway
