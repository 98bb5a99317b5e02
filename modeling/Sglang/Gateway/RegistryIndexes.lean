import Mathlib
import Sglang.Gateway.WorkerRegistry

/-!
# The Indexes of the Worker Registry

`register` stores a worker under the id of its url and pushes it into the index of its model, of its
type and of its connection mode; `remove` looks for it where its latest attributes put it.

- `Lists`: what an index holds, against the map of the workers,
- `Indexed`: the invariant of the calls that register no url a second time,
- `registry_agrees_iff`: the indexes agree with the workers all along a run if and only if no call
  registers a url under which a worker is stored.
-/

namespace Sglang.Registry

open List Option Function
open Lib (run Along run_of_invariant invariant_of_run stays_iff_along)

/-! ## Section 1: The map of the workers -/

namespace Workers

variable {workers : Workers} {i : WorkerId} {w : Worker}

theorem mem_pairs : (i, w) ∈ workers.pairs ↔ workers.lookup i = some w := by
  rw [← mem_def, AList.mem_lookup_iff, pairs, List.mem_map]
  constructor
  · rintro ⟨e, he, heq⟩
    cases heq
    exact he
  · intro h
    exact ⟨_, h, rfl⟩

theorem pairs_insert (h : workers.lookup i = none) :
    Workers.pairs (workers.insert i w) = (i, w) :: workers.pairs := by
  unfold pairs
  rw [AList.entries_insert_of_notMem (AList.lookup_eq_none.mp h)]
  rfl

theorem pairs_erase (h : workers.lookup i = some w) :
    workers.pairs.Perm ((i, w) :: Workers.pairs (workers.erase i)) := by
  have hmem : i ∈ workers.entries.keys :=
    AList.lookup_isSome.mp (h ▸ rfl)
  obtain ⟨v, l₁, l₂, -, heq, herase⟩ := exists_of_kerase hmem
  have hv : v = w := by
    have hv : (i, v) ∈ workers.pairs := by
      unfold pairs
      rw [heq]
      exact List.mem_map.mpr ⟨⟨i, v⟩, mem_append_right _ (mem_cons_self ..), rfl⟩
    exact Option.some.inj ((mem_pairs.mp hv).symm.trans h)
  unfold pairs
  change (workers.entries.map _).Perm ((i, w) :: (List.kerase i workers.entries).map _)
  rw [herase, heq, map_append, map_append, map_cons, hv]
  exact perm_middle

theorem nodup_pairs (workers : Workers) : workers.pairs.Nodup := by
  apply List.Nodup.map _ (List.NodupKeys.nodup workers.nodupKeys)
  intro a b h
  obtain ⟨h₁, h₂⟩ := Prod.mk.inj h
  exact Sigma.ext h₁ (heq_of_eq h₂)

end Workers

/-! ## Section 2: What an index holds -/

section Lists

variable {κ α : Type} [DecidableEq κ]

/-- The index holds, under each key, the values of the workers with that attribute. -/
def Lists (value : WorkerId × Worker → α) (attr : Worker → κ) (index : Index κ α)
    (workers : Workers) :
    Prop :=
  ∀ key, (index.list key).Perm ((workers.pairs.filter fun e => attr e.2 = key).map value)

variable {value : WorkerId × Worker → α} {attr : Worker → κ} {index : Index κ α}
  {few many : Workers}
  {e : WorkerId × Worker}

theorem Lists.push (h : Lists value attr index few) (hadd : many.pairs.Perm (e :: few.pairs)) :
    Lists value attr (index.push (attr e.2) (value e)) many := by
  intro key
  apply List.Perm.trans _ ((hadd.filter _).map _).symm
  rw [Index.list_push, filter_cons]
  by_cases hkey : key = attr e.2
  · cases hkey
    rw [if_pos rfl, if_pos (decide_eq_true rfl), map_cons]
    exact (perm_append_singleton _ _).trans ((h _).cons _)
  · rw [if_neg hkey, if_neg (by simpa using Ne.symm hkey)]
    exact h key

theorem Lists.retain (h : Lists value attr index many) (hadd : many.pairs.Perm (e :: few.pairs))
    {p : α → Bool} (hout : p (value e) = false) (hin : ∀ d ∈ few.pairs, p (value d) = true) :
    Lists value attr (index.retain (attr e.2) p) few := by
  intro key
  have hlist := (h key).trans ((hadd.filter _).map _)
  rw [filter_cons] at hlist
  rw [Index.list_retain]
  by_cases hkey : key = attr e.2
  · cases hkey
    rw [if_pos (decide_eq_true rfl), map_cons] at hlist
    rw [if_pos rfl]
    apply (hlist.filter p).trans
    rw [filter_cons_of_neg (by rw [hout]; exact Bool.false_ne_true), filter_eq_self.mpr]
    intro a ha
    obtain ⟨d, hd, rfl⟩ := List.mem_map.mp ha
    exact hin d (mem_of_mem_filter hd)
  · rw [if_neg (by simpa using Ne.symm hkey)] at hlist
    rw [if_neg hkey]
    exact hlist

theorem Lists.workers {index : Index κ WorkerId} {workers : Workers}
    (h : Lists Prod.fst attr index workers) (key : κ) :
    ((index.list key).filterMap fun id => workers.lookup id).Perm
      ((workers.pairs.map Prod.snd).filter fun w => attr w = key) := by
  apply ((h key).filterMap _).trans
  have hlookup : ∀ l : List (WorkerId × Worker), (∀ d ∈ l, d ∈ workers.pairs) →
      (l.map Prod.fst).filterMap (fun id => workers.lookup id) = l.map Prod.snd := by
    intro l
    induction l with
    | nil => exact fun _ => rfl
    | cons d l ih =>
      intro hl
      have hd := Workers.mem_pairs.mp (hl d (mem_cons_self ..))
      rw [map_cons, filterMap_cons_some (f := fun id => workers.lookup id) hd,
        ih fun c hc => hl c (mem_cons_of_mem _ hc)]
      rfl
  rw [hlookup _ fun d hd => mem_of_mem_filter hd, List.filter_map]
  exact List.Perm.refl _

end Lists

/-! ## Section 3: The invariant -/

/-- What the calls keep: an id for the url of every worker, and indexes that hold the workers. -/
structure Indexed (hash : List UInt8 → UInt64) (newV4 : Nat → WorkerId) (calls : Nat)
    (r : WorkerRegistry) : Prop where
  urlToId : ∀ id w, r.get id = some w → r.urlToId w.url = some id
  injective : ∀ u v id, r.urlToId u = some id → r.urlToId v = some id → u = v
  drawn : ∀ u id, r.urlToId u = some id → ∃ k < calls, id = newV4 k
  models : Lists Prod.snd Worker.modelId r.modelIndex r.workers
  rings : ∀ modelId, r.hashRings modelId = (r.modelIndex modelId).map (HashRing.new hash)
  types : Lists Prod.fst Worker.workerType r.typeWorkers r.workers
  connections : Lists Prod.fst Worker.connectionMode r.connectionWorkers r.workers

/-- The indexes of the registry agree with the workers it stores. -/
structure Agree (r : WorkerRegistry) : Prop where
  byModel : ∀ modelId, (r.getByModel modelId).Perm (r.getAll.filter fun w => w.modelId = modelId)
  byType : ∀ workerType,
    (r.getByType workerType).Perm (r.getAll.filter fun w => w.workerType = workerType)
  byConnection : ∀ mode,
    (r.getByConnection mode).Perm (r.getAll.filter fun w => w.connectionMode = mode)
  ring : ∀ modelId url, url ∈ r.ringUrls modelId ↔ ∃ w ∈ r.getAll, w.modelId = modelId ∧ w.url = url
  urlToId : ∀ id w, r.get id = some w → r.urlToId w.url = some id
  distinct : ∀ i j v w, r.get i = some v → r.get j = some w → v.url = w.url → i = j

/-- No worker is stored under the url of a worker to register. -/
def NewUrl (s : State) : Call → Prop
  | .register worker => ∀ w ∈ s.registry.getAll, w.url ≠ worker.url
  | _ => True

instance (s : State) : DecidablePred (NewUrl s)
  | .register worker => inferInstanceAs (Decidable (∀ w ∈ s.registry.getAll, w.url ≠ worker.url))
  | .reserveIdForUrl _ => isTrue trivial
  | .remove _ => isTrue trivial
  | .removeByUrl _ => isTrue trivial

variable {hash : List UInt8 → UInt64} {newV4 : Nat → WorkerId} {calls : Nat} {r : WorkerRegistry}
  {worker : Worker} {id : WorkerId} {url : String}

theorem mem_getAll : worker ∈ r.getAll ↔ ∃ id, r.get id = some worker := by
  rw [WorkerRegistry.getAll, List.mem_map]
  constructor
  · rintro ⟨e, he, rfl⟩
    exact ⟨e.1, Workers.mem_pairs.mp he⟩
  · rintro ⟨id, h⟩
    exact ⟨(id, worker), Workers.mem_pairs.mpr h, rfl⟩

theorem indexed_new : Indexed hash newV4 0 .new where
  urlToId := fun _ w h => absurd h.symm (some_ne_none w)
  injective := fun _ _ id h => absurd h.symm (some_ne_none id)
  drawn := fun _ id h => absurd h.symm (some_ne_none id)
  models := fun _ => List.Perm.refl _
  rings := fun _ => rfl
  types := fun _ => List.Perm.refl _
  connections := fun _ => List.Perm.refl _

theorem Indexed.mem_ringUrls (h : Indexed hash newV4 calls r) (modelId : String) :
    url ∈ r.ringUrls modelId ↔ ∃ w ∈ r.getByModel modelId, w.url = url := by
  rw [WorkerRegistry.ringUrls, WorkerRegistry.getByModel, Index.list, h.rings]
  cases r.modelIndex modelId with
  | none => simp
  | some workers => exact HashRing.mem_urls_new hash

theorem Indexed.agree (h : Indexed hash newV4 calls r) : Agree r where
  byModel := by
    intro modelId
    rw [WorkerRegistry.getAll, List.filter_map]
    exact h.models modelId
  byType := h.types.workers
  byConnection := h.connections.workers
  ring := by
    intro modelId url
    rw [h.mem_ringUrls]
    have hmodel : (r.getByModel modelId).Perm (r.getAll.filter fun w => w.modelId = modelId) := by
      rw [WorkerRegistry.getAll, List.filter_map]
      exact h.models modelId
    constructor
    · rintro ⟨w, hw, heq⟩
      obtain ⟨hall, hm⟩ := mem_filter.mp (hmodel.mem_iff.mp hw)
      exact ⟨w, hall, of_decide_eq_true hm, heq⟩
    · rintro ⟨w, hall, hm, heq⟩
      exact ⟨w, hmodel.mem_iff.mpr (mem_filter.mpr ⟨hall, decide_eq_true hm⟩), heq⟩
  urlToId := h.urlToId
  distinct := by
    intro i j v w hv hw heq
    have hi := h.urlToId i v hv
    rw [heq, h.urlToId j w hw] at hi
    exact (Option.some.inj hi).symm

/-! ## Section 4: What a call keeps -/

theorem rings_update {rings : String → Option HashRing} {index : Index String Worker}
    (h : ∀ m, rings m = (index m).map (HashRing.new hash)) (modelId : String)
    (workers : Option (List Worker)) (m : String) :
    update rings modelId
        ((update index modelId workers modelId).map (HashRing.new hash)) m =
      (update index modelId workers m).map (HashRing.new hash) := by
  by_cases hm : m = modelId
  · cases hm
    rw [update_self]
  · rw [update_of_ne hm, update_of_ne hm, h]

theorem of_update_none {urlToId : String → Option WorkerId} {u : String}
    (h : update urlToId url none u = some id) : u ≠ url ∧ urlToId u = some id := by
  by_cases hu : u = url
  · rw [hu, update_self] at h
    exact absurd h.symm (some_ne_none id)
  · rw [update_of_ne hu] at h
    exact ⟨hu, h⟩

theorem Indexed.mono (h : Indexed hash newV4 calls r) : Indexed hash newV4 (calls + 1) r :=
  { h with
    drawn := by
      intro u id hu
      obtain ⟨k, hk, heq⟩ := h.drawn u id hu
      exact ⟨k, Nat.lt_succ_of_lt hk, heq⟩ }

theorem Indexed.idFor_ne (h : Indexed hash newV4 calls r) (hnew : Function.Injective newV4)
    {other : String} (hother : other ≠ url) : r.urlToId other ≠ some
    (r.idFor (newV4 calls) url) := by
  intro heq
  unfold WorkerRegistry.idFor at heq
  cases hurl : r.urlToId url with
  | some id =>
    rw [hurl] at heq
    exact hother (h.injective other url id heq hurl)
  | none =>
    rw [hurl] at heq
    obtain ⟨k, hk, hdrawn⟩ := h.drawn other _ heq
    exact absurd (hnew hdrawn) (Nat.ne_of_gt hk)

theorem Indexed.reserveIdForUrl (h : Indexed hash newV4 calls r) (hnew : Function.Injective newV4)
    (url : String) : Indexed hash newV4 (calls + 1) (r.reserveIdForUrl (newV4 calls) url) where
  urlToId := by
    intro id w hw
    have hid := h.urlToId id w hw
    change update r.urlToId url _ w.url = some id
    by_cases hurl : w.url = url
    · rw [hurl, update_self, WorkerRegistry.idFor, ← hurl, hid, getD_some]
    · rw [update_of_ne hurl, hid]
  injective := by
    intro u v id hu hv
    change update r.urlToId url _ u = some id at hu
    change update r.urlToId url _ v = some id at hv
    by_cases hurl : u = url
    · by_cases hvurl : v = url
      · rw [hurl, hvurl]
      · rw [hurl, update_self] at hu
        rw [update_of_ne hvurl, ← hu] at hv
        exact absurd hv (h.idFor_ne hnew hvurl)
    · rw [update_of_ne hurl] at hu
      by_cases hvurl : v = url
      · rw [hvurl, update_self] at hv
        rw [← hv] at hu
        exact absurd hu (h.idFor_ne hnew hurl)
      · rw [update_of_ne hvurl] at hv
        exact h.injective u v id hu hv
  drawn := by
    intro u id hu
    change update r.urlToId url _ u = some id at hu
    by_cases hurl : u = url
    · rw [hurl, update_self, WorkerRegistry.idFor] at hu
      rw [← Option.some.inj hu]
      cases heq : r.urlToId url with
      | none => exact ⟨calls, Nat.lt_succ_self calls, rfl⟩
      | some i => exact h.mono.drawn url i heq
    · rw [update_of_ne hurl] at hu
      exact h.mono.drawn u id hu
  models := h.models
  rings := h.rings
  types := h.types
  connections := h.connections

theorem Indexed.store (h : Indexed hash newV4 calls r) {fresh : WorkerId}
    (hid : r.urlToId worker.url = some id) (hfree : r.get id = none) :
    Indexed hash newV4 calls (r.register hash fresh worker) := by
  have hidFor : r.idFor fresh worker.url = id := by
    rw [WorkerRegistry.idFor, hid, getD_some]
  have hurls : (r.register hash fresh worker).urlToId = r.urlToId := by
    change update r.urlToId worker.url (some (r.idFor fresh worker.url)) = _
    rw [hidFor, ← hid, update_eq_self]
  have hworkers : (r.register hash fresh worker).workers = r.workers.insert id worker := by
    change r.workers.insert (r.idFor fresh worker.url) worker = _
    rw [hidFor]
  have hadd :
      (r.register hash fresh worker).workers.pairs.Perm ((id, worker) :: r.workers.pairs) := by
    rw [hworkers, Workers.pairs_insert hfree]
  constructor
  · intro i w hw
    rw [hurls]
    rw [WorkerRegistry.get, hworkers] at hw
    by_cases hi : i = id
    · rw [hi, AList.lookup_insert] at hw
      rw [← Option.some.inj hw, hi, hid]
    · rw [AList.lookup_insert_ne hi] at hw
      exact h.urlToId i w hw
  · rw [hurls]
    exact h.injective
  · rw [hurls]
    exact h.drawn
  · exact h.models.push hadd
  · exact rings_update h.rings worker.modelId _
  · change Lists Prod.fst Worker.workerType (r.typeWorkers.push worker.workerType _) _
    rw [hidFor]
    exact h.types.push hadd
  · change Lists Prod.fst Worker.connectionMode (r.connectionWorkers.push worker.connectionMode _) _
    rw [hidFor]
    exact h.connections.push hadd

theorem register_reserve (r : WorkerRegistry) (fresh : WorkerId) (worker : Worker) :
    (r.reserveIdForUrl fresh worker.url).register hash fresh worker =
      r.register hash fresh worker := by
  have hidFor : (r.reserveIdForUrl fresh worker.url).idFor fresh worker.url =
      r.idFor fresh worker.url := by
    change (update r.urlToId worker.url _ worker.url).getD fresh = _
    rw [update_self, getD_some]
  unfold WorkerRegistry.register
  rw [hidFor]
  unfold WorkerRegistry.reserveIdForUrl
  dsimp only
  rw [update_idem]

theorem Indexed.register (h : Indexed hash newV4 calls r) (hnew : Function.Injective newV4)
    (hurl : ∀ w ∈ r.getAll, w.url ≠ worker.url) :
    Indexed hash newV4 (calls + 1) (r.register hash (newV4 calls) worker) := by
  rw [← register_reserve]
  apply (h.reserveIdForUrl hnew worker.url).store (update_self ..)
  -- the id would be that of the url of the worker stored under it
  by_contra hget
  obtain ⟨w, hw⟩ := ne_none_iff_exists'.mp hget
  exact h.idFor_ne hnew (hurl w (mem_getAll.mpr ⟨_, hw⟩)) (h.urlToId _ w hw)

theorem Indexed.remove (h : Indexed hash newV4 calls r) (id : WorkerId) :
    Indexed hash newV4 calls (r.remove hash id) := by
  unfold WorkerRegistry.remove
  split
  · exact h
  · next worker hget =>
    have hadd := Workers.pairs_erase hget
    have hid := h.urlToId id worker hget
    have hother : ∀ e ∈ Workers.pairs (r.workers.erase id), e.1 ≠ id ∧ e.2.url ≠ worker.url := by
      intro e he
      have hlookup := Workers.mem_pairs.mp he
      have hne : e.1 ≠ id := by
        intro heq
        rw [heq, AList.lookup_erase] at hlookup
        exact absurd hlookup.symm (some_ne_none _)
      refine ⟨hne, ?_⟩
      intro heq
      rw [AList.lookup_erase_ne hne] at hlookup
      have := h.urlToId e.1 e.2 hlookup
      rw [heq, hid] at this
      exact hne (Option.some.inj this).symm
    constructor
    · intro i w hw
      have hmem := Workers.mem_pairs.mpr hw
      obtain ⟨hne, hurl⟩ := hother (i, w) hmem
      change update r.urlToId worker.url none w.url = some i
      rw [update_of_ne hurl]
      have hw' : r.workers.lookup i = some w := by
        rw [← AList.lookup_erase_ne hne]
        exact hw
      exact h.urlToId i w hw'
    · intro u v i hu hv
      exact h.injective u v i (of_update_none hu).2 (of_update_none hv).2
    · intro u i hu
      exact h.drawn u i (of_update_none hu).2
    · apply h.models.retain hadd
      · exact decide_eq_false (not_not_intro rfl)
      · intro e he
        exact decide_eq_true (hother e he).2
    · exact rings_update h.rings worker.modelId _
    · apply h.types.retain hadd
      · exact decide_eq_false (not_not_intro rfl)
      · intro e he
        exact decide_eq_true (hother e he).1
    · apply h.connections.retain hadd
      · exact decide_eq_false (not_not_intro rfl)
      · intro e he
        exact decide_eq_true (hother e he).1

theorem remove_forgotten (hget : r.get id = some worker) :
    WorkerRegistry.remove hash { r with urlToId := update r.urlToId worker.url none } id =
      r.remove hash id := by
  rw [WorkerRegistry.get] at hget
  unfold WorkerRegistry.remove
  dsimp only
  rw [hget]
  dsimp only
  rw [update_idem]

theorem Indexed.removeByUrl (h : Indexed hash newV4 calls r) (url : String) :
    Indexed hash newV4 calls (r.removeByUrl hash url) := by
  unfold WorkerRegistry.removeByUrl
  split
  · exact h
  · next id hid =>
    cases hget : r.get id with
    | some worker =>
      have hurl := h.injective url worker.url id hid (h.urlToId id worker hget)
      rw [hurl, remove_forgotten hget]
      exact h.remove id
    | none =>
      -- the url was reserved, and no worker has it
      apply Indexed.remove
      exact { h with
        urlToId := by
          intro i w hw
          have hi := h.urlToId i w hw
          have hurl : w.url ≠ url := by
            intro heq
            rw [heq, hid] at hi
            rw [Option.some.inj hi] at hget
            exact absurd (hget.symm.trans hw).symm (some_ne_none w)
          change update r.urlToId url none w.url = some i
          rw [update_of_ne hurl, hi]
        injective :=
          fun u v i hu hv => h.injective u v i (of_update_none hu).2 (of_update_none hv).2
        drawn := fun u i hu => h.drawn u i (of_update_none hu).2 }

theorem Indexed.apply (hnew : Function.Injective newV4) {s : State} {call : Call}
    (h : Indexed hash newV4 s.calls s.registry) (hurl : NewUrl s call) :
    Indexed hash newV4 (s.calls + 1) (s.registry.apply hash (newV4 s.calls) call) := by
  cases call with
  | register worker => exact h.register hnew hurl
  | reserveIdForUrl url => exact h.reserveIdForUrl hnew url
  | remove id => exact (h.remove id).mono
  | removeByUrl url => exact (h.removeByUrl url).mono

/-! ## Section 5: Registering again -/

theorem Agree.nodup_byType (h : Agree r) (workerType : WorkerType) :
    (r.getByType workerType).Nodup := by
  rw [(h.byType workerType).nodup_iff]
  apply List.Nodup.filter
  apply List.Nodup.map_on _ (Workers.nodup_pairs r.workers)
  intro a ha b hb heq
  have ha' := Workers.mem_pairs.mp ha
  have hb' := Workers.mem_pairs.mp hb
  exact Prod.ext (h.distinct a.1 b.1 a.2 b.2 ha' hb' (congrArg Worker.url heq)) heq

theorem Agree.getWorkersFiltered (h : Agree r) (isHealthy : Worker → Bool) (modelId : Option String)
    (workerType : Option WorkerType) (connectionMode : Option ConnectionMode)
    (runtimeType : Option RuntimeType) (healthyOnly : Bool) :
    (r.getWorkersFiltered isHealthy modelId workerType connectionMode runtimeType healthyOnly).Perm
      (r.getAll.filter fun w =>
        (workerType.all (w.workerType = ·) && connectionMode.all w.connectionMode.matches &&
          runtimeType.all (w.runtimeType = ·) && (!healthyOnly || isHealthy w)) &&
          modelId.all (w.modelId = ·)) := by
  unfold WorkerRegistry.getWorkersFiltered
  cases modelId with
  | none =>
    simp only [all_none, Bool.and_true]
    exact List.Perm.refl _
  | some model =>
    simp only [all_some]
    apply ((h.byModel model).filter _).trans
    rw [List.filter_filter]

/-- A worker that is registered again is listed under its old type, or twice under the new one. -/
theorem Indexed.not_agree_register (h : Indexed hash newV4 calls r) (fresh : WorkerId)
    (hold : ∃ w ∈ r.getAll, w.url = worker.url) : ¬Agree (r.register hash fresh worker) := by
  intro hagree
  obtain ⟨w, hw, hurl⟩ := hold
  obtain ⟨id, hget⟩ := mem_getAll.mp hw
  have hid : r.idFor fresh worker.url = id := by
    rw [WorkerRegistry.idFor, ← hurl, h.urlToId id w hget, getD_some]
  have hnow : (r.register hash fresh worker).get id = some worker := by
    change AList.lookup id (r.workers.insert (r.idFor fresh worker.url) worker) = _
    rw [hid, AList.lookup_insert]
  have hlist : ∀ t, (r.register hash fresh worker).typeWorkers.list t =
      if t = worker.workerType then r.typeWorkers.list worker.workerType ++ [id]
      else r.typeWorkers.list t := by
    intro t
    rw [← hid]
    exact Index.list_push (r.idFor fresh worker.url) t
  have hin : id ∈ r.typeWorkers.list w.workerType := by
    apply (h.types w.workerType).mem_iff.mpr
    apply List.mem_map.mpr
    exact ⟨(id, w), mem_filter.mpr ⟨Workers.mem_pairs.mpr hget, decide_eq_true rfl⟩, rfl⟩
  by_cases htype : w.workerType = worker.workerType
  · have hnodup := hagree.nodup_byType worker.workerType
    rw [WorkerRegistry.getByType, hlist, if_pos rfl, filterMap_append, nodup_append] at hnodup
    rw [htype] at hin
    exact hnodup.2.2 worker (mem_filterMap.mpr ⟨id, hin, hnow⟩) worker
      (mem_filterMap.mpr ⟨id, mem_singleton_self id, hnow⟩) rfl
  · have hmem : worker ∈ (r.register hash fresh worker).getByType w.workerType := by
      rw [WorkerRegistry.getByType, hlist, if_neg htype]
      exact mem_filterMap.mpr ⟨id, hin, hnow⟩
    have := mem_filter.mp ((hagree.byType w.workerType).mem_iff.mp hmem)
    exact htype (of_decide_eq_true this.2).symm

/-! ## Section 6: Runs -/

/-- The registry after each call of a run from the empty one agrees with its workers if and only if
no call registers a url under which a worker is stored. -/
theorem registry_agrees_iff (hash : List UInt8 → UInt64) {newV4 : Nat → WorkerId}
    (hnew : Function.Injective newV4) (calls : List Call) :
    (∀ n t, run (step hash newV4) .init (calls.take n) = some t → Agree t.registry) ↔
      Along (step hash newV4) NewUrl .init calls := by
  have halong : Along (step hash newV4) (fun _ _ => True) .init calls :=
    Along.of_forall (fun _ _ => trivial) State.init
  obtain ⟨s, hrun, -⟩ :=
    run_of_invariant (fun _ => True) (fun s call _ _ => ⟨_, rfl, trivial⟩) trivial halong
  apply stays_iff_along (fun s => Indexed hash newV4 s.calls s.registry) (fun s => Agree s.registry)
    (fun _ h => h.agree) _ _ indexed_new hrun
  · intro s call t h hurl hstep
    cases hstep
    exact h.apply hnew hurl
  · intro s call t h hurl hstep
    cases hstep
    cases call with
    | register worker =>
      simp only [NewUrl, not_forall, not_not] at hurl
      obtain ⟨w, hw, heq⟩ := hurl
      exact h.not_agree_register _ ⟨w, hw, heq⟩
    | reserveIdForUrl url => exact absurd trivial hurl
    | remove id => exact absurd trivial hurl
    | removeByUrl url => exact absurd trivial hurl

/-- Along such a run the lookups answer from the stored workers: `get_by_url` finds the worker of a
url and no other, and `get_workers_filtered` selects among all of them, whichever index it starts
from. -/
theorem lookups_run (hnew : Function.Injective newV4) {calls : List Call} {t : State}
    (hurls : Along (step hash newV4) NewUrl .init calls)
    (hrun : run (step hash newV4) .init calls = some t) :
    (∀ url w, t.registry.getByUrl url = some w ↔ w ∈ t.registry.getAll ∧ w.url = url) ∧
      ∀ (isHealthy : Worker → Bool) modelId workerType connectionMode runtimeType healthyOnly,
        (t.registry.getWorkersFiltered isHealthy modelId workerType connectionMode runtimeType
          healthyOnly).Perm
          (t.registry.getAll.filter fun w =>
            (workerType.all (w.workerType = ·) && connectionMode.all w.connectionMode.matches &&
              runtimeType.all (w.runtimeType = ·) && (!healthyOnly || isHealthy w)) &&
              modelId.all (w.modelId = ·)) := by
  have h : Indexed hash newV4 t.calls t.registry :=
    invariant_of_run (fun s => Indexed hash newV4 s.calls s.registry)
      (fun _ _ _ h hurl hstep => Option.some.inj hstep ▸ h.apply hnew hurl) indexed_new hurls hrun
  refine ⟨fun url w => ⟨fun hget => ?_, fun hw => ?_⟩, h.agree.getWorkersFiltered⟩
  · obtain ⟨id, hid, hget⟩ := bind_eq_some_iff.mp hget
    exact ⟨mem_getAll.mpr ⟨id, hget⟩, h.injective _ _ id (h.urlToId id w hget) hid⟩
  · obtain ⟨hw, rfl⟩ := hw
    obtain ⟨id, hget⟩ := mem_getAll.mp hw
    exact bind_eq_some_iff.mpr ⟨id, h.urlToId id w hget, hget⟩

def unaryId (k : Nat) : WorkerId := ⟨String.ofList (List.replicate k 'x')⟩

theorem unaryId_injective : Function.Injective unaryId := by
  intro j k heq
  have hlist := String.ofList_injective (WorkerId.mk.inj heq)
  rw [← length_replicate (n := j) (a := 'x'), hlist, length_replicate]

/-- A worker of the model `a`, and what its url is registered with later. -/
def workerOf (modelId : String) : Worker :=
  ⟨"http://worker1:8080", modelId, .regular, .http, .sglang⟩

/-- After the removal a worker can be registered again, and all indexes agree. -/
theorem registry_agrees_iff_removed :
    (∀ n t, run (step (fun _ => 0) unaryId) .init
        ([.register (workerOf "a"), .removeByUrl "http://worker1:8080",
          .register (workerOf "b")].take n) = some t → Agree t.registry) ↔
      Along (step (fun _ => 0) unaryId) NewUrl .init
        [.register (workerOf "a"), .removeByUrl "http://worker1:8080", .register (workerOf "b")] :=
  registry_agrees_iff (fun _ => 0) unaryId_injective _

def movedCalls : List Call :=
  [.register (workerOf "a"), .removeByUrl "http://worker1:8080", .register (workerOf "b")]

theorem lookups_run_moved : ∃ t, run (step (fun _ => 0) unaryId) .init movedCalls = some t ∧
    ∀ url w, t.registry.getByUrl url = some w ↔ w ∈ t.registry.getAll ∧ w.url = url :=
  ⟨_, rfl, (@lookups_run (fun _ => 0) unaryId unaryId_injective movedCalls _ (by decide) rfl).1⟩

/-- A url that is registered again with another model leaves the first worker in the index of its
model, where no worker is stored any more, and the second one twice in the index of its type. -/
theorem registered_again : ∃ t, run (step (fun _ => 0) unaryId) .init
      [.register (workerOf "a"), .register (workerOf "b")] = some t ∧
    t.registry.getAll = [workerOf "b"] ∧
    t.registry.getByModel "a" = [workerOf "a"] ∧
    t.registry.getByType .regular = [workerOf "b", workerOf "b"] ∧
    ¬Agree t.registry := by
  refine ⟨_, rfl, by decide, by decide, by decide, ?_⟩
  intro hagree
  exact absurd (hagree.byType .regular).length_eq (by decide)

end Sglang.Registry
