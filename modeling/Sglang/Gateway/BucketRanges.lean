import Mathlib.Tactic
import Sglang.Gateway.BucketPartition
import Sglang.Lib.IntervalTiling
import Sglang.Lib.Runs

/-!
# Where the Bucket Policy Leads a Request

The urls that the loads and the ranges of a bucket lead a request to, and that these are the urls
that `select_worker` prefers.

- `Bucket.Laid`, `BucketPolicy.laid_of_run`: after every run there are no boundaries, or they tile
  `usize`,
- `findBoundary_sound`, `findBoundary_complete`: the search finds a range of the length where there
  is one,
- `Leads`: the url of a least loaded worker, or that of the range,
- `leads_of_preferredUrl`, `preferredUrl_of_leads`: what the policy prefers.
-/

namespace Sglang.Gateway

open List Option Function
open Lib

namespace Bucket

/-! ## Section 1: Boundaries that are laid -/

/-- There are no boundaries, or they tile `usize`. -/
def Laid (b : Bucket) : Prop := b.boundary = [] ∨ Tiles usizeMax 0 (b.boundary.map Boundary.range)

theorem usizeMul_some {a b c : Nat} (h : usizeMul a b = some c) : c = a * b ∧ a * b ≤ usizeMax := by
  unfold usizeMul at h
  split at h
  · next hle => exact ⟨(Option.some.inj h).symm, hle⟩
  · cases h

theorem usizeAdd_some {a b c : Nat} (h : usizeAdd a b = some c) : c = a + b ∧ a + b ≤ usizeMax := by
  unfold usizeAdd at h
  split at h
  · next hle => exact ⟨(Option.some.inj h).symm, hle⟩
  · cases h

theorem usizeSub_some {a b c : Nat} (h : usizeSub a b = some c) : c = a - b ∧ b ≤ a := by
  unfold usizeSub at h
  split at h
  · next hle => exact ⟨(Option.some.inj h).symm, hle⟩
  · cases h

/-- An even split that does not overflow tiles `usize`, however many workers there are. -/
theorem tiles_of_evenSplit {workerCnt gap : Nat} : ∀ (urls : List String) {i : Nat}
    {l : List Boundary}, urls ≠ [] → i + urls.length = workerCnt →
    evenSplit workerCnt gap usizeMax i urls = some l →
    Tiles usizeMax (i * gap) (l.map Boundary.range) := by
  intro urls
  induction urls with
  | nil => exact fun h => absurd rfl h
  | cons url urls ih =>
    intro i l _ hi heq
    rw [length_cons] at hi
    by_cases hlast : i = workerCnt - 1
    · have hnil : urls = [] := length_eq_zero_iff.mp (by omega)
      subst hnil
      simp only [evenSplit, if_pos hlast, bind_eq_bind, bind_some,
        bind_eq_some_iff, Option.some.injEq] at heq
      obtain ⟨min, hmin, rfl⟩ := heq
      obtain ⟨rfl, hle⟩ := usizeMul_some hmin
      exact .last hle
    · simp only [evenSplit, if_neg hlast, bind_eq_bind, bind_eq_some_iff,
        Option.some.injEq] at heq
      obtain ⟨min, hmin, next, hnext, max, hmax, rest, hrest, rfl⟩ := heq
      obtain ⟨rfl, _⟩ := usizeMul_some hmin
      obtain ⟨rfl, _⟩ := usizeMul_some hnext
      obtain ⟨rfl, hpos⟩ := usizeSub_some hmax
      have hne : urls ≠ [] := by
        rintro rfl
        rw [length_nil] at hi
        omega
      -- a gap of zero would make the end of this range underflow
      have hgap : 0 < gap := Nat.pos_of_mul_pos_left hpos
      have hstart : (i + 1) * gap = i * gap + gap := Nat.add_one_mul i gap
      rw [map_cons]
      refine .cons (by omega) ?_
      rw [Nat.sub_add_cancel hpos]
      exact ih hne (by omega) hrest

theorem tiles_of_sweep (single : Nat) : ∀ (urls : List String) {upperBound : Nat} {loads : List Nat}
    {l : List Boundary}, urls ≠ [] → upperBound ≤ usizeMax →
    sweep single upperBound loads urls = some l →
    Tiles usizeMax upperBound (l.map Boundary.range) := by
  intro urls
  induction urls with
  | nil => exact fun h => absurd rfl h
  | cons url urls ih =>
    intro upperBound loads l _ hupper heq
    -- the range ends at `top`, and the next one starts behind it
    have hgo : ∀ {top next : Nat} {loads : List Nat} {rest : List Boundary}, urls ≠ [] →
        upperBound ≤ top → usizeAdd top 1 = some next → sweep single next loads urls = some rest →
        Tiles usizeMax upperBound ((⟨url, (upperBound, top)⟩ :: rest : List Boundary).map
          Boundary.range) := by
      intro top next loads rest hne htop hnext hrest
      obtain ⟨rfl, hle⟩ := usizeAdd_some hnext
      rw [map_cons]
      exact .cons htop (ih hne hle hrest)
    have hlast : Tiles usizeMax upperBound (([⟨url, (upperBound, usizeMax)⟩] : List Boundary).map
        Boundary.range) := .last hupper
    unfold sweep at heq
    split at heq
    · next h => cases h
    · next h =>
      cases h
      rw [Option.some.injEq] at heq
      exact heq ▸ hlast
    · next h =>
      cases h
      simp only [bind_eq_bind, bind_eq_some_iff] at heq
      obtain ⟨⟨full, loads'⟩, _, heq⟩ := heq
      cases full with
      | some load =>
        dsimp only at heq
        split at heq
        · rw [Option.some.injEq] at heq
          exact heq ▸ hlast
        · next hne =>
          simp only [bind_eq_some_iff, Option.some.injEq] at heq
          obtain ⟨realLoad, hreal, next, hnext, rest, hrest, rfl⟩ := heq
          obtain ⟨rfl, _⟩ := usizeAdd_some hreal
          refine hgo hne ?_ hnext hrest
          split
          · exact Nat.le_add_right _ _
          · omega
      | none =>
        simp only [bind_eq_some_iff] at heq
        obtain ⟨right, hright, heq⟩ := heq
        split at heq
        · rw [Option.some.injEq] at heq
          exact heq ▸ hlast
        · next hne =>
          simp only [bind_eq_some_iff, Option.some.injEq] at heq
          obtain ⟨next, hnext, rest, hrest, rfl⟩ := heq
          obtain ⟨rfl, _⟩ := usizeAdd_some hright
          exact hgo hne (Nat.le_add_right _ _) hnext hrest

variable {b t : Bucket}

theorem laid_of_initPrefillWorkerUrls {urls : List String}
    (heq : b.initPrefillWorkerUrls urls = some t) : t.Laid := by
  unfold initPrefillWorkerUrls at heq
  by_cases hzero : urls.length = 0
  · simp only [if_pos hzero, Option.some.injEq] at heq
    exact .inl (heq ▸ rfl)
  · simp only [if_neg hzero, bind_eq_bind, bind_eq_some_iff, Option.some.injEq] at heq
    obtain ⟨l, hl, rfl⟩ := heq
    have htiles := tiles_of_evenSplit urls (fun hnil => hzero (by rw [hnil]; rfl))
      (Nat.zero_add _) hl
    rw [Nat.zero_mul] at htiles
    exact .inr htiles

theorem step_laid (h : b.Laid) {op : Op} (heq : b.step op = some t) : t.Laid := by
  cases op with
  | initPrefillWorkerUrls urls => exact laid_of_initPrefillWorkerUrls heq
  | addPrefillUrl url => exact laid_of_initPrefillWorkerUrls heq
  | removePrefillUrl url =>
    simp only [step, removePrefillUrl] at heq
    split at heq
    · exact laid_of_initPrefillWorkerUrls heq
    · rw [Option.some.injEq] at heq
      exact heq ▸ h
  | postProcessRequest charCnt prefillUrl now id =>
    rw [step, Option.some.injEq] at heq
    exact heq ▸ h
  | adjustBoundary =>
    simp only [step, adjustBoundary] at heq
    split at heq
    · rw [Option.some.injEq] at heq
      exact heq ▸ h
    split at heq
    · rw [Option.some.injEq] at heq
      exact heq ▸ h
    next hcnt =>
    simp only [bind_eq_bind, bind_eq_some_iff] at heq
    obtain ⟨keep, _, heq⟩ := heq
    split at heq
    · rw [Option.some.injEq] at heq
      exact heq ▸ h
    simp only [bind_eq_some_iff, Option.some.injEq] at heq
    obtain ⟨boundary, hsweep, rfl⟩ := heq
    refine .inr (tiles_of_sweep _ _ ?_ (Nat.zero_le _) hsweep)
    intro hnil
    exact hcnt (length_eq_zero_iff.mpr hnil)

/-! ## Section 2: The search -/

/-- What the search finds is the url of a range of the length, whatever the boundaries are. -/
theorem findBoundary_sound {c : Nat} {url : String} (h : b.findBoundary c = some url) :
    ∃ e ∈ b.boundary, e.Contains c ∧ e.url = url := by
  rw [findBoundary, bind_eq_some_iff] at h
  obtain ⟨mid, hmid, h⟩ := h
  obtain ⟨e, he, hurl⟩ := map_eq_some_iff.mp h
  have hside := side_of_bisect hmid
  simp only [side, he] at hside
  split at hside
  · cases hside
  split at hside
  · cases hside
  exact ⟨e, mem_of_getElem? he, ⟨by omega, by omega⟩, hurl⟩

/-- Over boundaries that are laid, the search finds every range of the length. -/
theorem findBoundary_complete (h : b.Laid) {c : Nat} {e : Boundary} (he : e ∈ b.boundary)
    (hc : e.Contains c) : b.findBoundary c = some e.url := by
  rcases h with hnil | htiles
  · rw [hnil] at he
    exact absurd he not_mem_nil
  · have htop := htiles.end_le e.range (List.mem_map_of_mem he)
    obtain ⟨e', _, _, hfound, honly⟩ := findBoundary_spec htiles (hc.2.trans htop)
    rw [honly e he hc]
    exact hfound

end Bucket

namespace BucketPolicy

/-- After every run that returns, the boundaries of every bucket are laid. -/
theorem laid_of_run {period : Nat} {imbalanced : Nat → Nat → Bool} {unknownModelId : String}
    {ops : List (String × Bucket.Op)} {p : BucketPolicy}
    (hrun : run step (withConfig period imbalanced unknownModelId) ops = some p) :
    ∀ model b, p.buckets model = some b → b.Laid := by
  refine invariant_of_run (P := fun _ _ => True)
    (fun q : BucketPolicy => ∀ model b, q.buckets model = some b → b.Laid) ?_ ?_
    (Along.of_forall (fun _ _ => trivial) _) hrun
  · intro q op t h _ hstep model b hb
    simp only [step] at hstep
    split at hstep
    · rw [Option.some.injEq] at hstep
      exact h model b (hstep ▸ hb)
    · next old hold =>
      obtain ⟨new, hnew, rfl⟩ := map_eq_some_iff.mp hstep
      have hlaid : old.Laid := by
        cases hq : q.buckets op.1 with
        | some b' =>
          rw [hq, some_or, Option.some.injEq] at hold
          exact h op.1 old (hold ▸ hq)
        | none =>
          rw [hq, none_or] at hold
          split at hold
          · cases hold
            exact .inl rfl
          · cases hold
      change update q.buckets op.1 (some new) model = some b at hb
      by_cases hmodel : model = op.1
      · subst hmodel
        rw [update_self, Option.some.injEq] at hb
        exact hb ▸ Bucket.step_laid hlaid hnew
      · rw [update_of_ne hmodel] at hb
        exact h model b hb
  · exact fun _ _ h => by cases h

/-! ## Section 3: The preferred url -/

/-- The bucket leads a request of `n` characters to a url: that of a worker with the least
characters where the loads are imbalanced, else that of the range of `n`. -/
def Leads (p : BucketPolicy) (b : Bucket) (n : Nat) (url : String) : Prop :=
  if p.imbalanced (b.charsPerUrl.values.max?.getD 0) (b.charsPerUrl.values.min?.getD 0) then
    ∃ load, (url, load) ∈ b.charsPerUrl ∧ ∀ e ∈ b.charsPerUrl, load ≤ e.2
  else ∃ e ∈ b.boundary, e.Contains n ∧ e.url = url ∧ url ≠ ""

variable {p : BucketPolicy} {b : Bucket} {n : Nat} {url : String}

theorem least_iff (chars : Counts) (load : Nat) (h : ∃ e ∈ chars, e.2 = load) :
    some load = chars.values.min? ↔ ∀ e ∈ chars, load ≤ e.2 := by
  rw [eq_comm, min?_eq_some_iff, Counts.values]
  simp only [List.mem_map, forall_exists_index, and_imp, forall_apply_eq_imp_iff₂]
  exact ⟨fun hmin => hmin.2, fun hle => ⟨h, hle⟩⟩

theorem leastUrl_iff (chars : Counts) (url : String) :
    (∃ tie, leastUrl chars tie = some url) ↔
      ∃ load, (url, load) ∈ chars ∧ ∀ e ∈ chars, load ≤ e.2 := by
  have hmem : url ∈ (chars.filter fun e => some e.2 = chars.values.min?).map Prod.fst ↔
      ∃ load, (url, load) ∈ chars ∧ ∀ e ∈ chars, load ≤ e.2 := by
    simp only [List.mem_map, mem_filter, decide_eq_true_eq, Prod.exists, exists_and_right,
      exists_eq_right]
    refine exists_congr fun load => and_congr_right fun he => ?_
    exact least_iff chars load ⟨_, he, rfl⟩
  rw [← hmem]
  unfold leastUrl
  constructor
  · rintro ⟨tie, h⟩
    exact mem_of_getElem? h
  · intro h
    obtain ⟨i, hi⟩ := mem_iff_getElem?.mp h
    have hlt := (List.getElem?_eq_some_iff.mp hi).1
    exact ⟨i, by dsimp only; rw [Nat.mod_eq_of_lt hlt]; exact hi⟩

theorem leads_of_preferredUrl {tie : Nat} (h : p.preferredUrl b n tie = some url) :
    p.Leads b n url := by
  unfold preferredUrl at h
  unfold Leads
  dsimp only at h
  split at h
  · next himbalanced =>
    rw [if_pos himbalanced]
    exact (leastUrl_iff _ _).mp ⟨tie, h⟩
  · next himbalanced =>
    rw [if_neg himbalanced]
    rw [filter_eq_some_iff] at h
    obtain ⟨e, he, hc, hurl⟩ := Bucket.findBoundary_sound h.1
    exact ⟨e, he, hc, hurl, of_decide_eq_true h.2⟩

/-- Where the boundaries are laid, the policy prefers what the bucket leads to. -/
theorem preferredUrl_of_leads (hlaid : b.Laid) (h : p.Leads b n url) :
    ∃ tie, p.preferredUrl b n tie = some url := by
  unfold Leads at h
  unfold preferredUrl
  dsimp only
  split at h
  · next himbalanced =>
    simp only [himbalanced, if_true]
    exact (leastUrl_iff _ _).mpr h
  · next himbalanced =>
    obtain ⟨e, he, hc, rfl, hne⟩ := h
    refine ⟨0, ?_⟩
    rw [if_neg himbalanced, Bucket.findBoundary_complete hlaid he hc]
    exact filter_eq_some_iff.mpr ⟨rfl, decide_eq_true hne⟩

end BucketPolicy
end Sglang.Gateway
