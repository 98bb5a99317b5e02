import Mathlib.Data.List.Rotate
import Sglang.Gateway.WorkerRegistry

/-!
# Lookups on the Hash Ring

Model of `HashRing::find_healthy_url` (`core/worker_registry.rs`).

- `walk`: the walk over the virtual nodes with the set of the urls that were checked,
- `findHealthyUrl`: the walk from the first node at or after the key, past the end to the front,
- `IsFirst`: what it looks for, the first node clockwise of the key whose url is healthy,
- `leaves_filter`: a worker that leaves takes its own keys with it, and no others.

The clockwise distance from a key to a node is the difference of their positions as 64-bit integers.
-/

namespace Sglang.Registry.HashRing

open List

/-! ## Section 1: The lookup -/

section Lookup

variable (hash : List UInt8 → UInt64)

def hashPosition (s : String) : UInt64 := hash s.toUTF8.data.toList

/-- `partition_point`: where the entries that satisfy the predicate end. -/
def partitionPoint (entries : List (UInt64 × String)) (pred : UInt64 × String → Bool) : Nat :=
  (entries.takeWhile pred).length

/-- The walk: `checked` are the urls that were seen before, the list holds the steps `i` still to
take. -/
def walk (ring : HashRing) (isHealthy : String → Bool) (start : Nat) :
    List String → List Nat → Option String
  | _, [] => none
  | checked, i :: rest =>
    match ring.entries[(start + i) % ring.entries.length]? with
    | none => none -- not reached, the index is in range
    | some (_, url) =>
      if url ∈ checked then walk ring isHealthy start checked rest
      else if isHealthy url then some url
      else walk ring isHealthy start (url :: checked) rest

def findHealthyUrl (ring : HashRing) (key : String) (isHealthy : String → Bool) : Option String :=
  if ring.entries.isEmpty then none
  else
    let keyPos := hashPosition hash key
    let start := partitionPoint ring.entries (fun e => e.1 < keyPos)
    ring.walk isHealthy start [] (List.range ring.entries.length)

end Lookup

/-! ## Section 2: The walk is a search of the rotated ring -/

/-- Urls that were checked are not healthy, so skipping them changes nothing. -/
theorem walk_eq_find (ring : HashRing) (isHealthy : String → Bool) (start : Nat)
    (hne : ring.entries ≠ []) (is : List Nat) :
    ∀ checked : List String, (∀ url ∈ checked, isHealthy url = false) →
      ring.walk isHealthy start checked is =
        ((is.filterMap fun i => ring.entries[(start + i) % ring.entries.length]?).find?
          fun e => isHealthy e.2).map Prod.snd := by
  induction is with
  | nil => exact fun _ _ => rfl
  | cons i is ih =>
    intro checked hchecked
    have hlt : (start + i) % ring.entries.length < ring.entries.length :=
      Nat.mod_lt _ (length_pos_of_ne_nil hne)
    have hsees : ((i :: is).filterMap fun i => ring.entries[(start + i) % ring.entries.length]?) =
        ring.entries[(start + i) % ring.entries.length] ::
          is.filterMap fun i => ring.entries[(start + i) % ring.entries.length]? := by
      rw [filterMap_cons, getElem?_eq_getElem hlt]
    unfold walk
    rw [hsees, getElem?_eq_getElem hlt]
    obtain ⟨pos, url⟩ := ring.entries[(start + i) % ring.entries.length]
    dsimp only
    split
    · next hmem => rw [ih checked hchecked, find?_cons_of_neg (by simp [hchecked url hmem])]
    · split
      · next hhealthy => rw [find?_cons_of_pos (by exact hhealthy), Option.map_some]
      · next hhealthy =>
        rw [find?_cons_of_neg (by exact hhealthy)]
        apply ih
        intro u hu
        rcases mem_cons.mp hu with rfl | hu
        · exact Bool.eq_false_iff.mpr hhealthy
        · exact hchecked u hu

theorem filterMap_range_eq_rotate {α : Type*} (l : List α) (start : Nat) :
    ((List.range l.length).filterMap fun i => l[(start + i) % l.length]?) = l.rotate start := by
  have hall : ∀ n ≤ l.length,
      ((List.range n).filterMap fun i => l[(start + i) % l.length]?) = (l.rotate start).take n := by
    intro n
    induction n with
    | zero => simp
    | succ n ih =>
      intro hn
      have hget : l[(start + n) % l.length]? = (l.rotate start)[n]? := by
        rw [getElem?_rotate hn, Nat.add_comm]
      rw [range_succ, filterMap_append, ih (Nat.le_of_succ_le hn), take_add_one, ← hget]
      rfl
  rw [hall _ le_rfl, take_of_length_le (by rw [length_rotate])]

/-- The ring as it is seen from a key: the entries at or after it, then those before it. -/
def seenFrom (ring : HashRing) (keyPos : UInt64) : List (UInt64 × String) :=
  ring.entries.dropWhile (fun e => e.1 < keyPos) ++ ring.entries.takeWhile (fun e => e.1 < keyPos)

theorem mem_seenFrom {ring : HashRing} {keyPos : UInt64} {e : UInt64 × String} :
    e ∈ ring.seenFrom keyPos ↔ e ∈ ring.entries := by
  rw [seenFrom, mem_append, or_comm, ← mem_append, takeWhile_append_dropWhile]

theorem findHealthyUrl_eq (hash : List UInt8 → UInt64) (ring : HashRing) (key : String)
    (isHealthy : String → Bool) :
    findHealthyUrl hash ring key isHealthy =
      ((ring.seenFrom (hashPosition hash key)).find? fun e => isHealthy e.2).map Prod.snd := by
  unfold findHealthyUrl
  split
  · next hempty =>
    rw [List.isEmpty_iff] at hempty
    simp [seenFrom, hempty]
  · next hne =>
    rw [List.isEmpty_iff] at hne
    dsimp only
    rw [walk_eq_find ring isHealthy _ hne _ [] (by simp), filterMap_range_eq_rotate]
    have hrotate := rotate_append_length_eq
      (ring.entries.takeWhile fun e => e.1 < hashPosition hash key)
      (ring.entries.dropWhile fun e => e.1 < hashPosition hash key)
    rw [takeWhile_append_dropWhile] at hrotate
    rw [partitionPoint, hrotate, seenFrom]

/-! ## Section 3: Clockwise order -/

theorem sub_le_sub_of {k a b : UInt64} (h : (k ≤ a ∧ (b < k ∨ a ≤ b)) ∨ (b < k ∧ a ≤ b)) :
    a - k ≤ b - k := by
  simp only [UInt64.le_iff_toNat_le, UInt64.lt_iff_toNat_lt, UInt64.toNat_sub] at h ⊢
  have ha := a.toNat_lt
  have hb := b.toNat_lt
  have hk := k.toNat_lt
  omega

theorem eq_of_sub_eq {k a b : UInt64} (h : a - k = b - k) : a = b := by
  rw [← UInt64.toNat_inj] at h ⊢
  simp only [UInt64.toNat_sub] at h
  have ha := a.toNat_lt
  have hb := b.toNat_lt
  have hk := k.toNat_lt
  omega

theorem le_of_mem_dropWhile {keyPos : UInt64} {entries : List (UInt64 × String)}
    (hsorted : entries.Pairwise fun a b => a.1 ≤ b.1) :
    ∀ e ∈ entries.dropWhile (fun e => e.1 < keyPos), keyPos ≤ e.1 := by
  induction entries with
  | nil => simp
  | cons a entries ih =>
    obtain ⟨hhead, htail⟩ := pairwise_cons.mp hsorted
    intro e he
    by_cases ha : a.1 < keyPos
    · rw [dropWhile_cons_of_pos (by simpa using ha)] at he
      exact ih htail e he
    · rw [dropWhile_cons_of_neg (by simpa using ha)] at he
      have hle := UInt64.not_lt.mp ha
      rcases mem_cons.mp he with rfl | he
      · exact hle
      · exact UInt64.le_trans hle (hhead e he)

theorem pairwise_seenFrom (ring : HashRing) (keyPos : UInt64) :
    (ring.seenFrom keyPos).Pairwise fun a b => a.1 - keyPos ≤ b.1 - keyPos := by
  have hafter := @le_of_mem_dropWhile keyPos _ ring.sorted
  have hbefore : ∀ e ∈ ring.entries.takeWhile (fun e => e.1 < keyPos), e.1 < keyPos :=
    fun e he => by simpa using mem_takeWhile_imp he
  apply pairwise_append.mpr
  refine ⟨?_, ?_, ?_⟩
  · have hsub := ring.sorted.sublist (dropWhile_sublist fun e => e.1 < keyPos)
    apply List.Pairwise.imp_of_mem _ hsub
    exact fun ha _ hab => sub_le_sub_of (.inl ⟨hafter _ ha, .inr hab⟩)
  · have hsub := ring.sorted.sublist (takeWhile_sublist fun e => e.1 < keyPos)
    apply List.Pairwise.imp_of_mem _ hsub
    exact fun _ hb hab => sub_le_sub_of (.inr ⟨hbefore _ hb, hab⟩)
  · intro a ha b hb
    exact sub_le_sub_of (.inl ⟨hafter a ha, .inl (hbefore b hb)⟩)

theorem find_least {α : Type*} {r : α → α → Prop} (hrefl : ∀ a, r a a) {p : α → Bool} {l : List α}
    (hl : l.Pairwise r) {a : α} (h : l.find? p = some a) : ∀ b ∈ l, p b = true → r a b := by
  obtain ⟨-, xs, ys, rfl, hxs⟩ := find?_eq_some_iff_append.mp h
  intro b hb hpb
  rcases mem_append.mp hb with hb | hb
  · have hnot := hxs b hb
    rw [hpb] at hnot
    cases hnot
  · rcases mem_cons.mp hb with rfl | hb
    · exact hrefl _
    · exact (pairwise_cons.mp (pairwise_append.mp hl).2.1).1 b hb

/-! ## Section 4: The first healthy node -/

/-- `url` is healthy and owns the first node clockwise of the key, among the nodes with a healthy
url. -/
def IsFirst (nodes : List (UInt64 × String)) (keyPos : UInt64) (isHealthy : String → Bool)
    (url : String) : Prop :=
  ∃ e ∈ nodes, e.2 = url ∧ isHealthy url = true ∧
    ∀ e' ∈ nodes, isHealthy e'.2 = true → e.1 - keyPos ≤ e'.1 - keyPos

/-- Virtual nodes of distinct urls have distinct positions. -/
def DistinctPositions (hash : List UInt8 → UInt64) (workers : List Worker) : Prop :=
  ∀ a ∈ virtualNodes hash workers, ∀ b ∈ virtualNodes hash workers, a.1 = b.1 → a.2 = b.2

variable {hash : List UInt8 → UInt64} {workers workers' : List Worker} {key : String}
  {isHealthy isHealthy' : String → Bool} {url : String}

theorem mem_entries_new {e : UInt64 × String} :
    e ∈ (new hash workers).entries ↔ e ∈ virtualNodes hash workers :=
  (mergeSort_perm (virtualNodes hash workers) byPosition).mem_iff

theorem mem_virtualNodes {e : UInt64 × String} :
    e ∈ virtualNodes hash workers ↔
      ∃ w ∈ workers, ∃ v < virtualNodesPerWorker, (position hash w.url v, w.url) = e := by
  simp only [virtualNodes, mem_flatMap, mem_map, mem_range]

theorem isFirst_of_find (h : findHealthyUrl hash (new hash workers) key isHealthy = some url) :
    IsFirst (virtualNodes hash workers) (hashPosition hash key) isHealthy url := by
  rw [findHealthyUrl_eq, Option.map_eq_some_iff] at h
  obtain ⟨e, hfind, rfl⟩ := h
  have hmem := mem_entries_new.mp (mem_seenFrom.mp (mem_of_find?_eq_some hfind))
  have hhealthy : isHealthy e.2 = true := by simpa using find?_some hfind
  refine ⟨e, hmem, rfl, hhealthy, ?_⟩
  intro e' he' hhealthy'
  have hrefl : ∀ a : UInt64 × String, a.1 - hashPosition hash key ≤ a.1 - hashPosition hash key :=
    fun _ => UInt64.le_refl _
  exact find_least hrefl (pairwise_seenFrom _ _) hfind e'
    (mem_seenFrom.mpr (mem_entries_new.mpr he'))
    hhealthy'

theorem find_eq_none_iff :
    findHealthyUrl hash (new hash workers) key isHealthy = none ↔
      ∀ w ∈ workers, isHealthy w.url = false := by
  rw [findHealthyUrl_eq, Option.map_eq_none_iff, find?_eq_none]
  constructor
  · intro h w hw
    obtain ⟨e, he, hurl⟩ := mem_map.mp ((mem_urls_new hash).mpr ⟨w, hw, rfl⟩)
    have hnot := h e (mem_seenFrom.mpr he)
    rwa [hurl, Bool.not_eq_true] at hnot
  · intro h e he
    obtain ⟨w, hw, hurl⟩ := (mem_urls_new hash).mp (mem_map_of_mem (mem_seenFrom.mp he))
    rw [← hurl, h w hw]
    exact Bool.false_ne_true

theorem IsFirst.unique (hpos : DistinctPositions hash workers) {keyPos : UInt64} {url' : String}
    (h : IsFirst (virtualNodes hash workers) keyPos isHealthy url)
    (h' : IsFirst (virtualNodes hash workers) keyPos isHealthy url') : url = url' := by
  obtain ⟨e, he, rfl, hhealthy, hleast⟩ := h
  obtain ⟨e', he', rfl, hhealthy', hleast'⟩ := h'
  have heq := UInt64.le_antisymm (hleast e' he' hhealthy') (hleast' e he hhealthy)
  exact hpos e he e' he' (eq_of_sub_eq heq)

theorem find_eq_some_iff (hpos : DistinctPositions hash workers) :
    findHealthyUrl hash (new hash workers) key isHealthy = some url ↔
      IsFirst (virtualNodes hash workers) (hashPosition hash key) isHealthy url := by
  constructor
  · exact isFirst_of_find
  · intro hfirst
    cases hfind : findHealthyUrl hash (new hash workers) key isHealthy with
    | some url' => rw [hfirst.unique hpos (isFirst_of_find hfind)]
    | none =>
      obtain ⟨e, he, rfl, hhealthy, -⟩ := hfirst
      obtain ⟨w, hw, v, -, rfl⟩ := mem_virtualNodes.mp he
      have hnot := find_eq_none_iff.mp hfind w hw
      rw [hhealthy] at hnot
      cases hnot

/-! ## Section 5: Workers that leave -/

/-- The workers `workers'` are those of `workers` without some with the url `gone`, and `gone` may
have turned unhealthy. -/
structure Leaves (gone : String) (workers workers' : List Worker)
    (isHealthy isHealthy' : String → Bool) : Prop where
  sub : ∀ w ∈ workers', w ∈ workers
  stay : ∀ w ∈ workers, w.url ≠ gone → w ∈ workers'
  health : ∀ u, u ≠ gone → isHealthy' u = isHealthy u
  healthGone : isHealthy' gone = true → isHealthy gone = true

theorem virtualNodes_sub {workers workers' : List Worker} (h : ∀ w ∈ workers', w ∈ workers)
    {e : UInt64 × String} (he : e ∈ virtualNodes hash workers') :
    e ∈ virtualNodes hash workers := by
  obtain ⟨w, hw, v, hv, rfl⟩ := mem_virtualNodes.mp he
  exact mem_virtualNodes.mpr ⟨w, h w hw, v, hv, rfl⟩

theorem DistinctPositions.mono (hpos : DistinctPositions hash workers)
    (h : ∀ w ∈ workers', w ∈ workers) : DistinctPositions hash workers' :=
  fun a ha b hb => hpos a (virtualNodes_sub h ha) b (virtualNodes_sub h hb)

namespace Leaves

variable {gone : String}

section

variable (h : Leaves gone workers workers' isHealthy isHealthy')
include h

theorem healthy {u : String}
    (hu : isHealthy' u = true) : isHealthy u = true := by
  by_cases hgone : u = gone
  · subst hgone
    exact h.healthGone hu
  · rwa [← h.health u hgone]

theorem isFirst {keyPos : UInt64}
    (hne : url ≠ gone) (hfirst : IsFirst (virtualNodes hash workers) keyPos isHealthy url) :
    IsFirst (virtualNodes hash workers') keyPos isHealthy' url := by
  obtain ⟨e, he, rfl, hhealthy, hleast⟩ := hfirst
  obtain ⟨w, hw, v, hv, rfl⟩ := mem_virtualNodes.mp he
  refine ⟨_, mem_virtualNodes.mpr ⟨w, h.stay w hw hne, v, hv, rfl⟩, rfl, ?_, ?_⟩
  · rw [h.health _ hne, hhealthy]
  · intro e' he' hhealthy'
    exact hleast e' (virtualNodes_sub h.sub he') (h.healthy hhealthy')

theorem find_eq
    (hpos : DistinctPositions hash workers)
    (hne : findHealthyUrl hash (new hash workers) key isHealthy ≠ some gone) :
    findHealthyUrl hash (new hash workers') key isHealthy' =
      findHealthyUrl hash (new hash workers) key isHealthy := by
  cases hfind : findHealthyUrl hash (new hash workers) key isHealthy with
  | some url =>
    rw [find_eq_some_iff (hpos.mono h.sub)]
    apply h.isFirst _ (isFirst_of_find hfind)
    rintro rfl
    exact hne hfind
  | none =>
    rw [find_eq_none_iff] at hfind ⊢
    intro w hw
    apply Bool.eq_false_iff.mpr
    intro hhealthy
    have hnot := hfind w (h.sub w hw)
    rw [h.healthy hhealthy] at hnot
    cases hnot

end

end Leaves

/-! ## Section 6: Consistent hashing -/

/-- What consistent hashing promises of the ring of some workers. -/
structure Consistent (hash : List UInt8 → UInt64) (workers : List Worker) : Prop where
  first : ∀ key isHealthy url, findHealthyUrl hash (new hash workers) key isHealthy = some url ↔
    IsFirst (virtualNodes hash workers) (hashPosition hash key) isHealthy url
  unhealthy : ∀ key isHealthy, findHealthyUrl hash (new hash workers) key isHealthy = none ↔
    ∀ url ∈ (new hash workers).urls, isHealthy url = false
  order : ∀ workers', workers.Perm workers' → ∀ key isHealthy,
    findHealthyUrl hash (new hash workers') key isHealthy =
      findHealthyUrl hash (new hash workers) key isHealthy
  stable : ∀ gone workers' isHealthy isHealthy', Leaves gone workers workers' isHealthy isHealthy' →
    ∀ key, findHealthyUrl hash (new hash workers) key isHealthy ≠ some gone →
      findHealthyUrl hash (new hash workers') key isHealthy' =
        findHealthyUrl hash (new hash workers) key isHealthy
  removed : ∀ gone key isHealthy,
    findHealthyUrl hash (new hash workers) key isHealthy ≠ some gone →
      findHealthyUrl hash (new hash (workers.filter (·.url ≠ gone))) key isHealthy =
        findHealthyUrl hash (new hash workers) key isHealthy
  turned : ∀ gone key isHealthy,
    findHealthyUrl hash (new hash workers) key isHealthy ≠ some gone →
      findHealthyUrl hash (new hash workers) key (fun u => isHealthy u && u ≠ gone) =
        findHealthyUrl hash (new hash workers) key isHealthy
  added : ∀ w ∈ workers, ∀ key isHealthy,
    findHealthyUrl hash (new hash workers) key isHealthy =
        findHealthyUrl hash (new hash (workers.erase w)) key isHealthy ∨
      findHealthyUrl hash (new hash workers) key isHealthy = some w.url

theorem leaves_filter (gone : String) (workers : List Worker) (isHealthy : String → Bool) :
    Leaves gone workers (workers.filter (·.url ≠ gone)) isHealthy isHealthy where
  sub _ hw := mem_of_mem_filter hw
  stay _ hw hne := mem_filter.mpr ⟨hw, decide_eq_true hne⟩
  health _ _ := rfl
  healthGone h := h

theorem leaves_erase (w : Worker) (workers : List Worker) (isHealthy : String → Bool) :
    Leaves w.url workers (workers.erase w) isHealthy isHealthy where
  sub _ hw := mem_of_mem_erase hw
  stay _ hv hne := (mem_erase_of_ne fun heq => hne (congrArg Worker.url heq)).mpr hv
  health _ _ := rfl
  healthGone h := h

theorem leaves_unhealthy (gone : String) (workers : List Worker) (isHealthy : String → Bool) :
    Leaves gone workers workers isHealthy (fun u => isHealthy u && u ≠ gone) where
  sub _ hw := hw
  stay _ hw _ := hw
  health u hne := by simp [hne]
  healthGone h := by simp at h

/-- Consistent hashing moves only the keys it must. -/
theorem hashing_consistent (hpos : DistinctPositions hash workers) : Consistent hash workers where
  first _ _ _ := find_eq_some_iff hpos
  unhealthy key isHealthy := by
    rw [find_eq_none_iff]
    constructor
    · intro h url hurl
      obtain ⟨w, hw, rfl⟩ := (mem_urls_new hash).mp hurl
      exact h w hw
    · exact fun h w hw => h w.url ((mem_urls_new hash).mpr ⟨w, hw, rfl⟩)
  order workers' hperm key isHealthy := by
    have hsub : ∀ w ∈ workers', w ∈ workers := fun w hw => hperm.mem_iff.mpr hw
    apply Option.ext
    intro url
    rw [find_eq_some_iff hpos, find_eq_some_iff (hpos.mono hsub)]
    have hmem : ∀ e, e ∈ virtualNodes hash workers' ↔ e ∈ virtualNodes hash workers := fun e =>
      ⟨virtualNodes_sub hsub, virtualNodes_sub fun w hw => hperm.mem_iff.mp hw⟩
    simp only [IsFirst, hmem]
  stable _ _ _ _ h _ hne := h.find_eq hpos hne
  removed gone _ isHealthy hne := (leaves_filter gone workers isHealthy).find_eq hpos hne
  turned gone _ isHealthy hne := (leaves_unhealthy gone workers isHealthy).find_eq hpos hne
  added w _ key isHealthy := by
    by_cases hw : findHealthyUrl hash (new hash workers) key isHealthy = some w.url
    · exact .inr hw
    · exact .inl ((leaves_erase w workers isHealthy).find_eq hpos hw).symm

/-- The first byte that is hashed, as a position. -/
def firstByte : List UInt8 → UInt64
  | [] => 0
  | b :: _ => b.toUInt64

def plainWorker (url : String) : Worker := ⟨url, "m", .regular, .http, .sglang⟩

theorem hashing_consistent_two : Consistent firstByte [plainWorker "a", plainWorker "b"] := by
  apply hashing_consistent
  intro e he e' he' heq
  obtain ⟨w, hw, v, -, rfl⟩ := mem_virtualNodes.mp he
  obtain ⟨w', hw', v', -, rfl⟩ := mem_virtualNodes.mp he'
  have ha : ∀ v, position firstByte "a" v = 97 := fun _ => rfl
  have hb : ∀ v, position firstByte "b" v = 98 := fun _ => rfl
  simp only [mem_cons, not_mem_nil, or_false] at hw hw'
  rcases hw with rfl | rfl <;> rcases hw' with rfl | rfl <;> simp [plainWorker, ha, hb] at heq ⊢

end Sglang.Registry.HashRing
