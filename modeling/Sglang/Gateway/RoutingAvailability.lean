import Mathlib
import Sglang.Gateway.Bucket
import Sglang.Gateway.BucketRanges
import Sglang.Gateway.CacheAwarePolicy
import Sglang.Gateway.ManualPolicy
import Sglang.Gateway.TenantTreeRuns
import Sglang.Gateway.TenantTreeSturdy
import Sglang.Lib.Runs

/-!
# Routing to Available Workers

When `select_worker` of the bucket, the cache-aware and the manual policy refuses a request or sends
it to a worker that is not available.

- `BucketPolicy.Strays`: a range or a least loaded entry of the bucket leads to no available worker,
- `CacheAwarePolicy.HitsOpenBreaker`: where the longest stored prefix ends, a tenant is a healthy
  worker whose circuit breaker is open,
- `ManualPolicy.selectWorker_routed`: the manual policy is always right,
- `selectWorker_routed_iff`: the three together, over whatever the calls choose,
- `misrouted`: histories after which a request is refused or misrouted.
-/

namespace Sglang.Gateway

open List Option Function
open Lib (run run_append)

/-! ## Section 1: Slices with distinct urls -/

variable {workers : List Worker}

theorem positionOf_url (hdistinct : (workers.map Worker.url).Nodup) {w : Worker}
    (hw : w ∈ workers) :
    ∃ i, positionOf workers w.url = some i ∧ workers[i]? = some w := by
  cases hi : positionOf workers w.url with
  | none =>
    rw [positionOf, findIdx?_eq_none_iff] at hi
    exact absurd rfl (of_decide_eq_false (hi w hw))
  | some i =>
    obtain ⟨w', hw', hurl⟩ := positionOf_eq_some hi
    have heq : w' = w := inj_on_of_nodup_map hdistinct (mem_of_getElem? hw') hw hurl
    exact ⟨i, rfl, heq ▸ hw'⟩

theorem routed_positionOf (hdistinct : (workers.map Worker.url).Nodup)
    (hsome : getHealthyWorkerIndices workers ≠ []) (url : String) :
    Routed workers (positionOf workers url) ↔ ∃ w ∈ workers, w.url = url ∧ w.Available := by
  rw [routed_iff hsome]
  constructor
  · rintro ⟨i, w, hi, hw, havailable⟩
    obtain ⟨w', hw', hurl⟩ := positionOf_eq_some hi
    rw [hw, Option.some.injEq] at hw'
    subst hw'
    exact ⟨w, mem_of_getElem? hw, hurl, havailable⟩
  · rintro ⟨w, hw, rfl, havailable⟩
    obtain ⟨i, hi, hat⟩ := positionOf_url hdistinct hw
    exact ⟨i, w, hi, hat, havailable⟩

theorem find_available (workers : List Worker) :
    ((getHealthyWorkerIndices workers).head?.bind fun i => workers[i]?) =
      workers.find? fun w => decide w.Available := by
  have htest : ∀ w : Worker, (w.isHealthy && w.canExecute) = decide w.Available := by
    intro w
    rw [Bool.eq_iff_iff, Bool.and_eq_true, decide_eq_true_eq]
    rfl
  have hfind : (workers.find? fun w => decide w.Available) =
      (workers.zipIdx.find? fun x => decide x.1.Available).map Prod.fst := by
    conv_lhs => rw [← zipIdx_map_fst 0 workers, find?_map]
    rfl
  rw [hfind, getHealthyWorkerIndices, head?_map, head?_filter]
  simp only [htest]
  cases hx : workers.zipIdx.find? fun x => decide x.1.Available with
  | none => rfl
  | some x =>
    have hat := mem_zipIdx_iff_getElem?.mp (mem_of_find?_eq_some hx)
    simp only [map_some, bind_some, hat]

theorem urlAt_available {i : Nat} (h : i ∈ getHealthyWorkerIndices workers) :
    ∃ w ∈ workers, w.url = urlAt workers i ∧ w.Available := by
  obtain ⟨w, hw, havailable⟩ := mem_getHealthyWorkerIndices.mp h
  exact ⟨w, mem_of_getElem? hw, by rw [urlAt, hw]; rfl, havailable⟩

theorem healthy_of_find {w : Worker} (h : (workers.find? fun w => decide w.Available) = some w) :
    getHealthyWorkerIndices workers ≠ [] := by
  intro hnil
  have havailable := @List.find?_some _ (fun w : Worker => decide w.Available) _ _ h
  exact getHealthyWorkerIndices_eq_nil.mp hnil w (mem_of_find?_eq_some h)
    (of_decide_eq_true havailable)

theorem no_healthy_of_find (h : (workers.find? fun w => decide w.Available) = none) :
    getHealthyWorkerIndices workers = [] := by
  rw [find?_eq_none] at h
  exact getHealthyWorkerIndices_eq_nil.mpr fun w hw havailable => h w hw (decide_eq_true havailable)

/-! ## Section 2: The bucket policy -/

namespace BucketPolicy

/-- The bucket of the model leads the request to a url that no available worker has. -/
def Strays (p : BucketPolicy) (workers : List Worker) (requestText : Option (List Char)) : Prop :=
  ∃ w b url, (workers.find? fun w => decide w.Available) = some w ∧
    p.buckets (normalizeModelKey p.unknownModelId w.modelId) = some b ∧
    p.Leads b ((requestText.map List.length).getD 0) url ∧
    ¬ ∃ w' ∈ workers, w'.url = url ∧ w'.Available

variable {p : BucketPolicy}

theorem selectWorker_none (p : BucketPolicy) (hnil : getHealthyWorkerIndices workers = [])
    (requestText : Option (List Char)) (random tie now : Nat) (id : String) :
    (p.selectWorker workers requestText random tie now id).2 = none := by
  simp only [selectWorker, hnil, head?_nil]

theorem selectWorker_position {w : Worker}
    (hw : (workers.find? fun w => decide w.Available) = some w) (requestText : Option (List Char))
    (random tie now : Nat) (id : String) :
    ∃ w' ∈ workers, w'.Available ∧ (p.selectWorker workers requestText random tie now id).2 =
      positionOf workers (((p.buckets (normalizeModelKey p.unknownModelId w.modelId)).bind fun b =>
        p.preferredUrl b ((requestText.map List.length).getD 0) tie).getD w'.url) := by
  rw [← find_available, bind_eq_some_iff] at hw
  obtain ⟨first, hfirst, hw⟩ := hw
  have hsome : getHealthyWorkerIndices workers ≠ [] := ne_nil_of_mem (mem_of_mem_head? hfirst)
  obtain ⟨i, hi, hrandom⟩ := randomSelect_mem hsome random
  obtain ⟨w', hw', hurl, havailable⟩ := urlAt_available hi
  refine ⟨w', hw', havailable, ?_⟩
  simp only [selectWorker, hfirst, hw, hrandom, map_some, getD_some, ← hurl]
  cases p.buckets (normalizeModelKey p.unknownModelId w.modelId) with
  | none => rfl
  | some b => rfl

theorem selectWorker_run (p : BucketPolicy) (workers : List Worker)
    (requestText : Option (List Char)) (random tie now : Nat) (id : String) : ∃ ops : List
    (String × Bucket.Op), run step p ops = some
    (p.selectWorker workers requestText random tie now id).1 := by
  unfold selectWorker
  dsimp only
  split
  · exact ⟨[], rfl⟩
  · split
    · exact ⟨[], rfl⟩
    · next first _ _ b hb =>
      refine ⟨[(normalizeModelKey p.unknownModelId ((workers[first]?.map Worker.modelId).getD ""),
        .postProcessRequest ((requestText.map List.length).getD 0)
          ((p.preferredUrl b ((requestText.map List.length).getD 0) tie).getD (urlAt workers
            ((randomSelect (getHealthyWorkerIndices workers) random).getD first))) now id)], ?_⟩
      simp only [run, step, hb, some_or, Bucket.step, map_some, bind_some]

/-- Whatever the state of the policy, a request that the bucket leads nowhere else is routed. -/
theorem selectWorker_routed (p : BucketPolicy) (hdistinct : (workers.map Worker.url).Nodup)
    {requestText : Option (List Char)} (h : ¬ p.Strays workers requestText) (random tie now : Nat)
    (id : String) : Routed workers (p.selectWorker workers requestText random tie now id).2 := by
  cases hw : workers.find? fun w => decide w.Available with
  | none =>
    have hnil := no_healthy_of_find hw
    rw [selectWorker_none p hnil]
    exact routed_none hnil
  | some w =>
    have hsome := healthy_of_find hw
    obtain ⟨w', hw', havailable, hposition⟩ :=
      selectWorker_position (p := p) hw requestText random tie
      now id
    rw [hposition, routed_positionOf hdistinct hsome]
    cases hb : p.buckets (normalizeModelKey p.unknownModelId w.modelId) with
    | none => exact ⟨w', hw', rfl, havailable⟩
    | some b =>
      rw [bind_some]
      cases hurl : p.preferredUrl b ((requestText.map List.length).getD 0) tie with
      | none => exact ⟨w', hw', rfl, havailable⟩
      | some url =>
        rw [getD_some]
        by_contra hno
        exact h ⟨w, b, url, hw, hb, leads_of_preferredUrl hurl, hno⟩

theorem exists_not_routed (hlaid : ∀ model b, p.buckets model = some b → b.Laid)
    (hdistinct : (workers.map Worker.url).Nodup) {requestText : Option (List Char)}
    (h : p.Strays workers requestText) : ∃ random tie now id,
      ¬ Routed workers (p.selectWorker workers requestText random tie now id).2 := by
  obtain ⟨w, b, url, hw, hb, hleads, hno⟩ := h
  obtain ⟨tie, hurl⟩ := preferredUrl_of_leads (hlaid _ b hb) hleads
  refine ⟨0, tie, 0, "", ?_⟩
  have hsome := healthy_of_find hw
  obtain ⟨w', _, _, hposition⟩ := selectWorker_position (p := p) hw requestText 0 tie 0 ""
  rw [hposition, hb, bind_some, hurl, getD_some, routed_positionOf hdistinct hsome]
  exact hno

end BucketPolicy

/-! ## Section 3: The manual policy -/

theorem foldl_minPass (value : Nat → Nat) : ∀ (indices : List Nat) (state : Option Nat × List Nat),
    (state.1 ≠ none → state.2 ≠ []) →
      (state.1 ≠ none ∨ indices ≠ [] → (indices.foldl (minPass value) state).2 ≠ []) ∧
        ∀ i ∈ (indices.foldl (minPass value) state).2, i ∈ state.2 ∨ i ∈ indices := by
  intro indices
  induction indices with
  | nil => exact fun state h => ⟨fun hsome => h (hsome.resolve_right (fun hne => hne rfl)),
      fun i hi => .inl hi⟩
  | cons idx indices ih =>
    intro state h
    have hpass : (minPass value state idx).1 ≠ none ∧ (minPass value state idx).2 ≠ [] ∧
        ∀ i ∈ (minPass value state idx).2, i ∈ state.2 ∨ i = idx := by
      unfold minPass
      split
      · exact ⟨some_ne_none _, cons_ne_nil _ _, fun i hi => .inr (mem_singleton.mp hi)⟩
      · next m hm =>
        split
        · exact ⟨some_ne_none _, cons_ne_nil _ _,
            fun i hi => .inr (mem_singleton.mp hi)⟩
        · split
          · refine ⟨some_ne_none _, append_ne_nil_of_right_ne_nil _ (cons_ne_nil _ _),
              fun i hi => ?_⟩
            rw [mem_append, mem_singleton] at hi
            exact hi
          · have hne : state.1 ≠ none := by
              rw [hm]
              exact some_ne_none m
            exact ⟨hne, h hne, fun i hi => .inl hi⟩
    obtain ⟨hsome, hne, hmem⟩ := hpass
    obtain ⟨hrest, hrestmem⟩ := ih (minPass value state idx) fun _ => hne
    rw [foldl_cons]
    refine ⟨fun _ => hrest (.inl hsome), fun i hi => ?_⟩
    rcases hrestmem i hi with hi | hi
    · rcases hmem i hi with hi | rfl
      · exact .inl hi
      · exact .inr mem_cons_self
    · exact .inr (mem_cons_of_mem idx hi)

theorem selectMinBy_mem (value : Nat → Nat) {indices : List Nat} (h : indices ≠ []) (random : Nat) :
    ∃ i ∈ indices, selectMinBy value indices random = some i := by
  obtain ⟨hne, hmem⟩ := foldl_minPass value indices (none, []) fun hnone => absurd rfl hnone
  obtain ⟨i, hi, heq⟩ := randomSelect_mem (hne (.inr h)) random
  exact ⟨i, (hmem i hi).resolve_left not_mem_nil, heq⟩

theorem findHealthyWorker_mem {urls : List String} {healthyIndices : List Nat} {i : Nat}
    (h : findHealthyWorker urls workers healthyIndices = some i) : i ∈ healthyIndices := by
  obtain ⟨url, _, hurl⟩ := exists_of_findSome?_eq_some h
  rw [filter_eq_some_iff] at hurl
  exact of_decide_eq_true hurl.2

namespace ManualPolicy

theorem selectNewWorker_mem (p : ManualPolicy) (workers : List Worker) {healthyIndices : List Nat}
    (h : healthyIndices ≠ []) (random : Nat) :
    ∃ i ∈ healthyIndices, p.selectNewWorker workers healthyIndices random = some i := by
  unfold selectNewWorker
  split
  · exact randomSelect_mem h random
  · exact selectMinBy_mem _ h random
  · exact selectMinBy_mem _ h random

theorem selectByRoutingId_mem (p : ManualPolicy) (workers : List Worker) (routingId : String)
    {healthyIndices : List Nat} (h : healthyIndices ≠ []) (random now : Nat) :
    ∃ p', ∃ i ∈ healthyIndices,
      p.selectByRoutingId workers routingId healthyIndices random now = some (p', i) := by
  obtain ⟨new, hnew, heq⟩ := selectNewWorker_mem p workers h random
  unfold selectByRoutingId
  split
  · dsimp only
    split
    · next i hi => exact ⟨_, i, findHealthyWorker_mem hi, rfl⟩
    · exact ⟨_, new, hnew, by rw [heq]; rfl⟩
  · exact ⟨_, new, hnew, by rw [heq]; rfl⟩

theorem selectWorker_routed (p : ManualPolicy) (workers : List Worker) (routingKey : Option String)
    (random now : Nat) :
    ∃ p' r, p.selectWorker workers routingKey random now = some (p', r) ∧ Routed workers r := by
  unfold selectWorker
  by_cases hnil : getHealthyWorkerIndices workers = []
  · simp only [if_pos hnil]
    exact ⟨p, none, rfl, routed_none hnil⟩
  · simp only [if_neg hnil]
    cases routingKey with
    | some routingId =>
      obtain ⟨p', i, hi, heq⟩ := selectByRoutingId_mem p workers routingId hnil random now
      exact ⟨p', some i, by simp only [heq, map_some], routed_some hi⟩
    | none =>
      obtain ⟨i, hi, heq⟩ := randomSelect_mem hnil random
      exact ⟨p, some i, by simp only [heq, map_some], routed_some hi⟩

end ManualPolicy

/-! ## Section 4: The cache-aware policy -/

namespace CacheAwarePolicy

def Sturdy (p : CacheAwarePolicy) : Prop := ∀ key tree, p.trees key = some tree → tree.Sturdy

variable {p : CacheAwarePolicy}

theorem Sturdy.setTree (h : p.Sturdy) (key : String) {tree : Tree} (ht : tree.Sturdy) :
    (p.setTree key tree).Sturdy := by
  intro k t hk
  change update p.trees key (some tree) k = some t at hk
  by_cases hkey : k = key
  · subst hkey
    rw [update_self, Option.some.injEq] at hk
    exact hk ▸ ht
  · rw [update_of_ne hkey] at hk
    exact h k t hk

theorem Sturdy.entry (h : p.Sturdy) (key : String) : (p.entry key).Sturdy := by
  unfold CacheAwarePolicy.entry
  cases htree : p.trees key with
  | none => exact Tree.sturdy_new
  | some tree => exact h key tree htree

/-- The longest prefix that is stored is a cache hit, and where it ends, a tenant that the lookup
may return is a healthy worker of the slice whose circuit breaker is open. -/
def HitsOpenBreaker (p : CacheAwarePolicy) (workers : List Worker)
    (requestText : Option (List Char)) (returns : Node → String → Prop) : Prop :=
  ∃ w tree i n w', (workers.find? fun w => decide w.Available) = some w ∧
    p.imbalanced (loadRange workers).2 (loadRange workers).1 = false ∧
    p.trees (p.treeKeyForWorker w) = some tree ∧
    p.cacheHit (tree.longest (requestText.getD [])) (requestText.getD []).length = true ∧
    tree.nodes i = some n ∧ tree.Ends (requestText.getD []) i ∧
    w' ∈ workers ∧ returns n w'.url ∧ w'.isHealthy = true ∧ w'.canExecute = false

theorem minLoadIndex_mem (workers : List Worker) {healthyIndices : List Nat}
    (h : healthyIndices ≠ []) :
    ∃ i ∈ healthyIndices, minLoadIndex workers healthyIndices = some i := by
  cases heq : minLoadIndex workers healthyIndices with
  | none =>
    rw [minLoadIndex, argmin_eq_none] at heq
    exact absurd heq h
  | some i => exact ⟨i, argmin_mem heq, rfl⟩

theorem selectWorkerMinLoad_spec (h : p.Sturdy) (workers : List Worker) {healthyIndices : List Nat}
    (hsome : healthyIndices ≠ []) (requestText : Option (List Char)) (treeKey : String)
    (insertEpoch : Nat) :
    ∃ p', ∃ i ∈ healthyIndices, p.selectWorkerMinLoad workers requestText healthyIndices treeKey
      insertEpoch = some (p', some i) ∧ p'.Sturdy := by
  obtain ⟨i, hi, heq⟩ := minLoadIndex_mem workers hsome
  unfold selectWorkerMinLoad
  simp only [heq]
  split
  · next text tree htree =>
    obtain ⟨tree', hinsert, hsturdy⟩ := Tree.sturdy_insert (h treeKey tree htree) insertEpoch text
      (urlAt workers i)
    exact ⟨_, i, hi, by simp only [hinsert, bind_eq_bind, bind_some],
      h.setTree treeKey hsturdy⟩
  · exact ⟨p, i, hi, rfl, h⟩

/-- A call returns; it is right unless the tenant that is chosen in its order is an open breaker. -/
theorem selectWorker_spec (h : p.Sturdy) (workers : List Worker) (requestText : Option (List Char))
    (c : SelectChoices) :
    ∃ p' r, p.selectWorker workers requestText c = some (p', r) ∧ p'.Sturdy ∧
      ((workers.map Worker.url).Nodup →
        (Routed workers r ↔ ¬ p.HitsOpenBreaker workers requestText fun n t =>
          (Tree.pickTenant c.order n).1 = t)) := by
  set hits := p.HitsOpenBreaker workers requestText fun n t => (Tree.pickTenant c.order n).1 = t
    with hdef
  cases hpivot : workers.find? fun w => decide w.Available with
  | none =>
    have hnil := no_healthy_of_find hpivot
    refine ⟨p, none, by simp only [selectWorker, find_available, hpivot], h,
      fun _ => iff_of_true (routed_none hnil) ?_⟩
    rintro ⟨w, _, _, _, _, hw, _⟩
    rw [hpivot] at hw
    cases hw
  | some pivot =>
    have hsome := healthy_of_find hpivot
    -- a healthy index is right, and then there must be no hit on an open breaker
    have hright : ∀ {p' i}, i ∈ getHealthyWorkerIndices workers → p'.Sturdy →
        p.selectWorker workers requestText c = some (p', some i) → ¬ hits →
        ∃ p' r, p.selectWorker workers requestText c = some (p', r) ∧ p'.Sturdy ∧
          ((workers.map Worker.url).Nodup → (Routed workers r ↔ ¬ hits)) :=
      fun hi hp' heq hno => ⟨_, _, heq, hp', fun _ => iff_of_true (routed_some hi) hno⟩
    by_cases himbalanced : p.imbalanced (loadRange workers).2 (loadRange workers).1 = true
    · obtain ⟨p', i, hi, heq, hp'⟩ := selectWorkerMinLoad_spec h workers hsome requestText
        (p.treeKeyForWorker pivot) c.insertEpoch
      refine hright hi hp' (by
        simp only [selectWorker, find_available, hpivot, himbalanced, if_true, heq]) ?_
      rintro ⟨_, _, _, _, _, _, hno, _⟩
      rw [himbalanced] at hno
      cases hno
    · have hbalanced : p.imbalanced (loadRange workers).2 (loadRange workers).1 = false :=
        eq_false_of_ne_true himbalanced
      cases htree : p.trees (p.treeKeyForWorker pivot) with
      | none =>
        obtain ⟨i, hi, heq⟩ := randomSelect_mem hsome c.random
        refine hright hi h (by
          simp only [selectWorker, find_available, hpivot, hbalanced, if_false, htree, heq,
            map_some, Bool.false_eq_true]) ?_
        rintro ⟨w, tree, _, _, _, hw, _, htree', _⟩
        rw [hpivot, Option.some.injEq] at hw
        subst hw
        rw [htree] at htree'
        cases htree'
      | some tree =>
        obtain ⟨t, node, n, hmatch, ht, hn, hends⟩ :=
          Tree.sturdy_prefixMatchWithCounts (h _ _ htree)
          c.order c.matchEpoch (requestText.getD [])
        -- the longest prefix ends in one node, so that the lookup meets the hit if there is one
        have hitsIff : hits ↔
            p.cacheHit (tree.longest (requestText.getD [])) (requestText.getD []).length = true ∧
              ∃ w ∈ workers, (Tree.pickTenant c.order n).1 = w.url ∧ w.isHealthy = true ∧
                w.canExecute = false := by
          constructor
          · rintro ⟨w, tree', i', n', w', hw, _, htree', hhit, hn', hends', hrest⟩
            rw [hpivot, Option.some.injEq] at hw
            subst hw
            rw [htree, Option.some.injEq] at htree'
            subst htree'
            have hi' := Tree.Ends.unique (h _ _ htree) hn' hn hends' hends
            subst hi'
            rw [hn, Option.some.injEq] at hn'
            subst hn'
            exact ⟨hhit, w', hrest⟩
          · rintro ⟨hhit, w', hrest⟩
            exact ⟨pivot, tree, node, n, w', hpivot, hbalanced, htree, hhit, hn, hends, hrest⟩
        rw [hitsIff]
        cases hhit : p.cacheHit (tree.longest (requestText.getD []))
          (requestText.getD []).length with
        | false =>
          obtain ⟨i, hi, heq⟩ := minLoadIndex_mem workers hsome
          obtain ⟨t', hinsert, ht'⟩ := Tree.sturdy_insert ht c.insertEpoch (requestText.getD [])
            (urlAt workers i)
          refine ⟨p.setTree (p.treeKeyForWorker pivot) t', some i, ?_, h.setTree _ ht',
            fun _ => iff_of_true (routed_some hi) (fun hno => Bool.false_ne_true hno.1)⟩
          simp only [selectWorker, find_available, hpivot, hbalanced, htree, hmatch, hhit, heq,
            hinsert, Bool.false_eq_true, if_false, bind_eq_bind, bind_some]
        | true =>
          cases hselected : (positionOf workers (Tree.pickTenant c.order n).1).filter
              fun idx => workers[idx]?.any Worker.isHealthy with
          | some idx =>
            obtain ⟨t', hinsert, ht'⟩ := Tree.sturdy_insert ht c.insertEpoch (requestText.getD [])
              (urlAt workers idx)
            refine ⟨p.setTree (p.treeKeyForWorker pivot) t', some idx, ?_, h.setTree _ ht', ?_⟩
            · simp only [selectWorker, find_available, hpivot, hbalanced, htree, hmatch, hhit,
                hselected, hinsert, Bool.false_eq_true, if_false, if_true, bind_eq_bind,
                bind_some]
            · intro hdistinct
              rw [filter_eq_some_iff] at hselected
              obtain ⟨hposition, hhealthy⟩ := hselected
              obtain ⟨w, hw, hurl⟩ := positionOf_eq_some hposition
              rw [hw, any_some] at hhealthy
              rw [routed_iff hsome]
              constructor
              · rintro ⟨i, w', hi, hw', havailable⟩ ⟨_, w₁, hw₁, hurl₁, _, hopen⟩
                cases hi
                obtain ⟨i₁, hi₁, hat⟩ := positionOf_url hdistinct hw₁
                rw [← hurl₁, hposition, Option.some.injEq] at hi₁
                rw [← hi₁, hw', Option.some.injEq] at hat
                exact Bool.false_ne_true (hopen.symm.trans (hat ▸ havailable.2))
              · intro hno
                have hopen : w.canExecute = true := by
                  by_contra hclosed
                  exact hno ⟨rfl, w, mem_of_getElem? hw, hurl.symm, hhealthy,
                    eq_false_of_ne_true hclosed⟩
                exact ⟨idx, w, rfl, hw, hhealthy, hopen⟩
          | none =>
            obtain ⟨first, hfirst⟩ := isSome_iff_exists.mp (isSome_head?.mpr hsome)
            obtain ⟨t', hremove, ht'⟩ := Tree.sturdy_removeTenant ht c.order
              (Tree.pickTenant c.order n).1
            refine ⟨p.setTree (p.treeKeyForWorker pivot) t', some first, ?_, h.setTree _ ht',
              fun hdistinct => iff_of_true (routed_some (mem_of_mem_head? hfirst)) ?_⟩
            · rw [← hfirst]
              simp only [selectWorker, find_available, hpivot, hbalanced, htree, hmatch, hhit,
                hselected, hremove, Bool.false_eq_true, if_false, if_true, bind_eq_bind,
                bind_some]
            · rintro ⟨_, w, hw, hurl, hhealthy, _⟩
              obtain ⟨idx, hposition, hat⟩ := positionOf_url hdistinct hw
              rw [filter_eq_none_iff] at hselected
              refine hselected idx (hurl ▸ hposition) ?_
              rw [hat]
              exact hhealthy

theorem hitsOpenBreaker_offers (p : CacheAwarePolicy) (workers : List Worker)
    (requestText : Option (List Char)) :
    p.HitsOpenBreaker workers requestText Tree.Offers ↔
      ∃ order, p.HitsOpenBreaker workers requestText fun n t =>
        (Tree.pickTenant order n).1 = t := by
  constructor
  · rintro ⟨w, tree, i, n, w', hw, hbalanced, htree, hhit, hn, hends, hmem, hoffers, hrest⟩
    obtain ⟨order, hpick⟩ := (Tree.offers_iff n w'.url).mp hoffers
    exact ⟨order, w, tree, i, n, w', hw, hbalanced, htree, hhit, hn, hends, hmem, hpick, hrest⟩
  · rintro ⟨order, w, tree, i, n, w', hw, hbalanced, htree, hhit, hn, hends, hmem, hpick, hrest⟩
    exact ⟨w, tree, i, n, w', hw, hbalanced, htree, hhit, hn, hends, hmem,
      (Tree.offers_iff n w'.url).mpr ⟨order, hpick⟩, hrest⟩

theorem sturdy_withConfig (imbalanced cacheHit : Nat → Nat → Bool) (unknownModelId : String) :
    (withConfig imbalanced cacheHit unknownModelId).Sturdy := by
  intro _ _ h
  cases h

theorem sturdy_removeUrlFrom (h : p.Sturdy) (key url : String) (order : DashOrder) :
    ∃ p', p.removeUrlFrom key url order = some p' ∧ p'.Sturdy := by
  unfold removeUrlFrom
  cases htree : p.trees key with
  | none => exact ⟨p, rfl, h⟩
  | some tree =>
    obtain ⟨t, heq, ht⟩ := Tree.sturdy_removeTenant (h key tree htree) order url
    exact ⟨p.setTree key t, by simp only [heq, bind_eq_bind, bind_some],
      h.setTree key ht⟩

theorem step_spec (h : p.Sturdy) (op : Op) : ∃ p', p.step op = some p' ∧ p'.Sturdy := by
  cases op with
  | addWorker w epoch =>
    obtain ⟨t, heq, ht⟩ := Tree.sturdy_insert (h.entry (p.treeKeyForWorker w)) epoch [] w.url
    exact ⟨p.setTree (p.treeKeyForWorker w) t,
      by simp only [step, addWorker, heq, bind_eq_bind, bind_some], h.setTree _ ht⟩
  | removeWorker w order => exact sturdy_removeUrlFrom h (p.treeKeyForWorker w) w.url order
  | removeUrlFrom key url order => exact sturdy_removeUrlFrom h key url order
  | applyRemoteInsert meshKey text tenant epoch =>
    obtain ⟨t, heq, ht⟩ := Tree.sturdy_insert (h.entry (p.normalizeMeshModelId meshKey)) epoch text
      tenant
    exact ⟨p.setTree (p.normalizeMeshModelId meshKey) t,
      by simp only [step, applyRemoteInsert, heq, bind_eq_bind, bind_some],
      h.setTree _ ht⟩
  | applyRemoteRemove meshKey tenant order =>
    obtain ⟨t, heq, ht⟩ := Tree.sturdy_removeTenant (h.entry (p.normalizeMeshModelId meshKey)) order
      tenant
    exact ⟨p.setTree (p.normalizeMeshModelId meshKey) t,
      by simp only [step, applyRemoteRemove, heq, bind_eq_bind, bind_some],
      h.setTree _ ht⟩
  | evictFrom key order tie maxSize =>
    simp only [step, evictFrom]
    cases htree : p.trees key with
    | none => exact ⟨p, rfl, h⟩
    | some tree =>
      obtain ⟨t, heq, ht⟩ := Tree.sturdy_evictTenantBySize (h key tree htree) order tie maxSize
      exact ⟨p.setTree key t, by simp only [heq, bind_eq_bind, bind_some],
        h.setTree key ht⟩
  | selectWorker workers requestText c =>
    obtain ⟨p', r, heq, hp', _⟩ := selectWorker_spec h workers requestText c
    exact ⟨p', by rw [step, heq]; rfl, hp'⟩

theorem run_spec (ops : List Op) : ∀ {p : CacheAwarePolicy}, p.Sturdy →
    ∃ p', run step p ops = some p' ∧ p'.Sturdy := by
  induction ops with
  | nil => exact fun {p} h => ⟨p, rfl, h⟩
  | cons op ops ih =>
    intro p h
    obtain ⟨p₁, hstep, hp₁⟩ := step_spec h op
    obtain ⟨p', hrun, hp'⟩ := ih hp₁
    refine ⟨p', ?_, hp'⟩
    rw [run, hstep]
    exact hrun

end CacheAwarePolicy

/-! ## Section 5: The three policies -/

/-- When the policies route a request over a slice with distinct urls, whatever a call chooses: the
bucket policy as long as the bucket leads to no url without an available worker, and in every state
that a run reaches only then; the cache-aware policy, which always returns, as long as no open
breaker is hit; the manual policy always. -/
theorem selectWorker_routed_iff (hdistinct : (workers.map Worker.url).Nodup)
    (requestText : Option (List Char)) :
    (∀ p : BucketPolicy, ¬ p.Strays workers requestText → ∀ random tie now id,
      Routed workers (p.selectWorker workers requestText random tie now id).2) ∧
    (∀ (period : Nat) (imbalanced : Nat → Nat → Bool) (unknownModelId : String)
      (ops : List (String × Bucket.Op)) (p : BucketPolicy),
      run BucketPolicy.step (BucketPolicy.withConfig period imbalanced unknownModelId) ops =
        some p →
      (∀ random tie now id, ∃ ops',
        run BucketPolicy.step (BucketPolicy.withConfig period imbalanced unknownModelId) ops' =
          some (p.selectWorker workers requestText random tie now id).1) ∧
      ((∀ random tie now id,
        Routed workers (p.selectWorker workers requestText random tie now id).2) ↔
          ¬ p.Strays workers requestText)) ∧
    (∀ (imbalanced cacheHit : Nat → Nat → Bool) (unknownModelId : String)
      (ops : List CacheAwarePolicy.Op), ∃ p,
      run CacheAwarePolicy.step
      (CacheAwarePolicy.withConfig imbalanced cacheHit unknownModelId) ops = some p ∧
      (∀ c, ∃ p' r, p.selectWorker workers requestText c = some (p', r)) ∧
      ((∀ c p' r, p.selectWorker workers requestText c = some (p', r) → Routed workers r) ↔
        ¬ p.HitsOpenBreaker workers requestText Tree.Offers)) ∧
    ∀ (p : ManualPolicy) (routingKey : Option String) (random now : Nat),
      ∃ p' r, p.selectWorker workers routingKey random now = some (p', r) ∧ Routed workers r := by
  refine ⟨fun p h => p.selectWorker_routed hdistinct h, ?_, ?_,
    fun p => p.selectWorker_routed workers⟩
  · intro period imbalanced unknownModelId ops p hrun
    refine ⟨fun random tie now id => ?_, ?_, fun h => p.selectWorker_routed hdistinct h⟩
    · obtain ⟨ops', hcall⟩ := p.selectWorker_run workers requestText random tie now id
      exact ⟨ops ++ ops', by rw [run_append, hrun, bind_some, hcall]⟩
    · intro hrouted hstrays
      obtain ⟨random, tie, now, id, hno⟩ :=
        BucketPolicy.exists_not_routed (BucketPolicy.laid_of_run hrun) hdistinct hstrays
      exact hno (hrouted random tie now id)
  · intro imbalanced cacheHit unknownModelId ops
    obtain ⟨p, hrun, hp⟩ := CacheAwarePolicy.run_spec ops
      (CacheAwarePolicy.sturdy_withConfig imbalanced cacheHit unknownModelId)
    have hspec := CacheAwarePolicy.selectWorker_spec hp workers requestText
    refine ⟨p, hrun, fun c => ?_, ?_⟩
    · obtain ⟨p', r, heq, _⟩ := hspec c
      exact ⟨p', r, heq⟩
    · rw [CacheAwarePolicy.hitsOpenBreaker_offers]
      constructor
      · rintro hrouted ⟨order, hhits⟩
        obtain ⟨p', r, heq, _, hiff⟩ := hspec ⟨order, 0, 0, 0⟩
        exact (hiff hdistinct).mp (hrouted _ p' r heq) hhits
      · intro hno c p' r heq
        obtain ⟨p₁, r₁, heq₁, _, hiff⟩ := hspec c
        rw [heq, Option.some.injEq, Prod.mk.injEq] at heq₁
        obtain ⟨rfl, rfl⟩ := heq₁
        exact (hiff hdistinct).mpr fun hhits => hno ⟨c.order, hhits⟩

def prefillWorker (url : String) (isHealthy canExecute : Bool) : Worker :=
  ⟨url, "m", .prefill, isHealthy, canExecute, 0, 0⟩

/-- A bucket policy that knows no worker yet. -/
def freshBuckets : BucketPolicy := BucketPolicy.withConfig 5000 (fun _ _ => false) "unknown"

def twoRanges : Option BucketPolicy :=
  run BucketPolicy.step freshBuckets
    (freshBuckets.initPrefillWorkerUrls
      [prefillWorker "w1" true true, prefillWorker "w2" true true])

/-- The range of a short text leads to the worker that is available. -/
theorem selectWorker_routed_fresh : ∃ p, twoRanges = some p ∧ ∀ random tie now id,
    Routed [prefillWorker "w1" true true, prefillWorker "w2" false true]
      (p.selectWorker [prefillWorker "w1" true true, prefillWorker "w2" false true] (some ['h'])
        random tie now id).2 := by
  refine ⟨_, rfl, ((selectWorker_routed_iff (by decide) (some ['h'])).2.1 5000 (fun _ _ => false)
    "unknown" (freshBuckets.initPrefillWorkerUrls
      [prefillWorker "w1" true true, prefillWorker "w2" true true]) _ rfl).2.mpr ?_⟩
  rintro ⟨w, b, url, hw, hb, hleads, hno⟩
  cases hw
  cases hb
  obtain ⟨e, he, hc, rfl, _⟩ := hleads
  rcases mem_cons.mp he with rfl | he
  · exact hno ⟨_, mem_cons_self, rfl, by decide⟩
  · rw [mem_singleton.mp he] at hc
    exact absurd hc.1 (by decide)

/-- The text `"h"` went to the first of two workers. -/
def oneText : Option CacheAwarePolicy :=
  run CacheAwarePolicy.step
    (CacheAwarePolicy.withConfig (fun _ _ => false) (fun m n => n < 2 * m) "unknown")
    [.addWorker (prefillWorker "w1" true true) 1, .addWorker (prefillWorker "w2" true true) 2,
      .selectWorker [prefillWorker "w1" true true, prefillWorker "w2" true true] (some ['h'])
        ⟨Tree.sortedOrder, 3, 4, 0⟩]

theorem not_routed_first (w : Worker) (workers : List Worker) (h : ¬ w.Available) :
    ¬ Routed (w :: workers) (some 0) := by
  intro hrouted
  obtain ⟨w', hw', havailable⟩ := hrouted.available 0 rfl
  cases hw'
  exact h havailable

/-- A range names an unhealthy worker; a range names a worker outside the slice; a hit names a
worker with an open circuit breaker. -/
theorem misrouted :
    (∃ p, twoRanges = some p ∧
      ¬ Routed [prefillWorker "w1" false true, prefillWorker "w2" true true]
        (p.selectWorker [prefillWorker "w1" false true, prefillWorker "w2" true true] none 0 0 0
          "r").2 ∧
      ¬ Routed [prefillWorker "w2" true true]
        (p.selectWorker [prefillWorker "w2" true true] none 0 0 0 "r").2) ∧
    ∃ p p' r, oneText = some p ∧
      p.selectWorker [prefillWorker "w1" true false, prefillWorker "w2" true true] (some ['h'])
        ⟨Tree.sortedOrder, 5, 6, 0⟩ = some (p', r) ∧
      ¬ Routed [prefillWorker "w1" true false, prefillWorker "w2" true true] r := by
  constructor
  · refine ⟨_, rfl, not_routed_first _ _ (by decide), ?_⟩
    intro hrouted
    exact hrouted.refused.mp rfl (prefillWorker "w2" true true) (by decide) (by decide)
  · exact ⟨_, _, some 0, rfl, rfl, not_routed_first _ _ (by decide)⟩

end Sglang.Gateway
