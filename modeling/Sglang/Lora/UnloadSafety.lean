import Mathlib.Data.List.Perm.Basic
import Mathlib.Data.List.Count
import Mathlib.Tactic
import Sglang.Lib.Tally
import Sglang.Lora.LoraRegistry

/-!
# Adapters in Use Are Not Unloaded

What the counters of the LoRA registry say about the acquisitions, over every order in which the
event loop resumes the tasks.

- `Counted`: the counter of an adapter is the number of its acquisitions,
- `protected_of_notOvertaken`: no adapter in use is unloaded, as long as no unload overtakes the
  increments of a list acquisition,
- `unload_overtakes`: such an unload is possible, since `asyncio.gather` runs the increments later.
-/

namespace Sglang.Lora

open List Option Function
open Lib (sum_map_set)

/-! ## Section 1: One task changes -/

/-- Whether a task waits for the counter of `x` to be zero. -/
def Task.unloads (x : String) : Task → Nat
  | .unloading id => if id = x then 1 else 0
  | _ => 0

/-- A task that misses no counter, whose list acquisition is counted as far as it has run. -/
def Task.Fine : Task → Prop
  | .incrementing pending counted ids => (pending ++ counted).Perm ids.reduceOption
  | .unloaded _ => False
  | .raised (.missingCounter _) => False
  | _ => True

namespace World

/-- The tasks that wait for the counter of `x` to be zero. -/
def unloads (w : World) (x : String) : Nat := (w.tasks.map (Task.unloads x)).sum

/-- The counter of an adapter is the number of its acquisitions, and an adapter with acquisitions,
counted or not, has its counter. -/
structure Counted (w : World) : Prop where
  registered : ∀ ref ∈ w.lora.registry, ref.loraId ∈ w.lora.counters
  names : (w.lora.registry.map (·.loraName)).Nodup
  distinct : (w.lora.registry.map (·.loraId)).Nodup
  issued : ∀ x ∈ w.lora.counters, x ∈ w.lora.issued
  balance : ∀ x ∈ w.lora.counters, w.lora.counts x = w.outstanding x
  live : ∀ x, x ∉ w.lora.counters → w.outstanding x = 0 ∧ w.uncounted x = 0
  single : ∀ x, w.unloads x ≤ 1
  unregistered : ∀ x, 0 < w.unloads x →
    x ∈ w.lora.counters ∧ x ∉ w.lora.registry.map (·.loraId)
  unloaded : ∀ x, .unloaded x ∈ w.tasks → x ∈ w.lora.issued ∧ x ∉ w.lora.counters
  fine : ∀ t ∈ w.tasks, t.Fine ∨ ∃ x, t = .unloaded x

theorem Counted.protected {w : World} (h : Counted w) : w.Protected where
  notUnloaded := by
    intro x hout hmem
    have := (h.live x (h.unloaded x hmem).2).1
    omega
  counter := by
    intro x hmem
    rcases h.fine _ hmem with hfine | ⟨y, heq⟩
    · exact hfine
    · cases heq
  count := by
    intro x hx
    have hmem : x ∈ w.lora.counters := by
      by_contra hnot
      rcases hx with hout | hmem
      · have := (h.live x hnot).1
        omega
      · exact hnot hmem
    exact ⟨hmem, h.balance x hmem⟩

theorem counted_init : Counted init where
  registered := by simp [init]
  names := by simp [init]
  distinct := by simp [init]
  issued := by simp [init]
  balance := by simp [init]
  live := by simp [init, outstanding, uncounted]
  single := by simp [init, unloads]
  unregistered := by simp [init, unloads]
  unloaded := by simp [init]
  fine := by simp [init]

/-- A task goes on: what it counts or gives back, its hands hold. -/
theorem Counted.step {w : World} (h : Counted w) {i : Nat} {t t' : Task} (hi : w.tasks[i]? = some t)
    (lora : LoRARegistry) (held : List String) {readers waitingWriters : Nat}
    (hreg : lora.registry.Perm w.lora.registry) (hcounters : lora.counters = w.lora.counters)
    (hissued : lora.issued = w.lora.issued)
    (hbalance : ∀ x, lora.counts x + (t.outstanding x + w.held.count x) =
      w.lora.counts x + (t'.outstanding x + held.count x))
    (hlive : ∀ x ∉ w.lora.counters, held.count x + t'.outstanding x + t'.uncounted x ≤
      w.held.count x + t.outstanding x + t.uncounted x)
    (hunloads : ∀ x, t'.unloads x = t.unloads x) (hfine : t'.Fine) :
    Counted ⟨lora, readers, waitingWriters, w.tasks.set i t', held⟩ := by
  have hmem : ∀ s ∈ w.tasks.set i t', s ∈ w.tasks ∨ s = t' := fun s hs =>
    mem_or_eq_of_mem_set hs
  have hout := fun x => sum_map_set (Task.outstanding x) (b := t') hi
  have hunc := fun x => sum_map_set (Task.uncounted x) (b := t') hi
  -- the sums over the tasks change by what task `i` adds and takes
  have hunl : ∀ x, ((w.tasks.set i t').map (Task.unloads x)).sum = w.unloads x := by
    intro x
    have hset := sum_map_set (Task.unloads x) (b := t') hi
    have := hunloads x
    unfold unloads
    omega
  refine ⟨?_, ?_, ?_, ?_, ?_, ?_, ?_, ?_, ?_, ?_⟩
  · intro ref href
    rw [hcounters]
    exact h.registered ref (hreg.mem_iff.mp href)
  · exact (hreg.map _).nodup_iff.mpr h.names
  · exact (hreg.map _).nodup_iff.mpr h.distinct
  · intro x hx
    simp only [hcounters, hissued] at hx ⊢
    exact h.issued x hx
  · intro x hx
    simp only [hcounters] at hx
    have hold := h.balance x hx
    have := hbalance x
    have := hout x
    unfold outstanding at hold ⊢
    simp only
    omega
  · intro x hx
    simp only [hcounters] at hx
    have hold := h.live x hx
    have := hlive x hx
    have := hout x
    have := hunc x
    unfold outstanding uncounted at hold ⊢
    simp only
    omega
  · intro x
    exact (hunl x).trans_le (h.single x)
  · intro x hx
    have hold := h.unregistered x ((hunl x).symm ▸ hx)
    simp only [hcounters]
    refine ⟨hold.1, ?_⟩
    rw [(hreg.map _).mem_iff]
    exact hold.2
  · intro x hx
    simp only [hcounters, hissued]
    rcases hmem _ hx with hx | rfl
    · exact h.unloaded x hx
    · exact hfine.elim
  · intro s hs
    rcases hmem s hs with hs | rfl
    · exact h.fine s hs
    · exact Or.inl hfine

/-! ## Section 2: The registry -/

end World

namespace LoRARegistry

variable {r r' : LoRARegistry} {name id : String} {ref : LoRARef}

theorem add_counts (r : LoRARegistry) (id : String) (n : Int) (x : String) :
    (r.add id n).counts x = r.counts x + if id = x then n else 0 := by
  simp only [add, update_apply]
  by_cases heq : id = x
  · subst heq
    simp
  · rw [if_neg (Ne.symm heq), if_neg heq, Int.add_zero]

theorem get_some (h : r.get name = some ref) : ref ∈ r.registry ∧ ref.loraName = name := by
  refine ⟨mem_of_find?_eq_some h, ?_⟩
  simpa using find?_some h

theorem filter_name {l : List LoRARef} (hnames : (l.map (·.loraName)).Nodup) (hmem : ref ∈ l) :
    l.filter (fun a => a.loraName = ref.loraName) = [ref] := by
  induction l with
  | nil => cases hmem
  | cons a l ih =>
    simp only [map_cons, nodup_cons] at hnames
    rcases mem_cons.mp hmem with rfl | hmem
    · have hnone : l.filter (fun a => a.loraName = ref.loraName) = [] := by
        simp only [filter_eq_nil_iff, decide_eq_true_eq]
        intro b hb heq
        exact hnames.1 (List.mem_map.mpr ⟨b, hb, heq⟩)
      rw [filter_cons_of_pos (by simp), hnone]
    · have hne : a.loraName ≠ ref.loraName := fun heq =>
        hnames.1 (List.mem_map.mpr ⟨ref, hmem, heq.symm⟩)
      rw [filter_cons_of_neg (by simpa using hne), ih hnames.2 hmem]

/-- Two registries differ at most in the order of the adapters. -/
structure Reordered (r r' : LoRARegistry) : Prop where
  registry : r'.registry.Perm r.registry
  counters : r'.counters = r.counters
  counts : r'.counts = r.counts
  issued : r'.issued = r.issued

theorem Reordered.refl (r : LoRARegistry) : Reordered r r := ⟨List.Perm.refl _, rfl, rfl, rfl⟩

theorem Reordered.trans {r₁ r₂ r₃ : LoRARegistry} (h : Reordered r₁ r₂) (h' : Reordered r₂ r₃) :
    Reordered r₁ r₃ :=
  ⟨h'.registry.trans h.registry, h'.counters.trans h.counters, h'.counts.trans h.counts,
    h'.issued.trans h.issued⟩

theorem lookup_ok (hnames : (r.registry.map (·.loraName)).Nodup)
    (h : r.lookup name = .ok (id, r')) :
    Reordered r r' ∧ ∃ ref ∈ r.registry, ref.loraId = id := by
  unfold lookup at h
  split at h
  · cases h
  · next ref hget =>
    cases h
    obtain ⟨hmem, rfl⟩ := get_some hget
    refine ⟨⟨?_, rfl, rfl, rfl⟩, ref, hmem, rfl⟩
    have hsplit :=
      filter_append_perm (fun a : LoRARef => !decide (a.loraName = ref.loraName)) r.registry
    simp only [Bool.not_not, filter_name hnames hmem] at hsplit
    simpa using hsplit

theorem lookupAll_spec (names : List (Option String)) : ∀ {r : LoRARegistry},
    (r.registry.map (·.loraName)).Nodup → Reordered r (r.lookupAll names).1 ∧
      (∀ x, (r.lookupAll names).2 ≠ .error (.missingCounter x)) ∧
      ∀ ids, (r.lookupAll names).2 = .ok ids →
        ∀ id ∈ ids.reduceOption, ∃ ref ∈ r.registry, ref.loraId = id := by
  -- a lookup moves its adapter to the end, and the ids stay those of the registry
  induction names with
  | nil =>
    intro r _
    refine ⟨Reordered.refl r, by simp [lookupAll], ?_⟩
    intro ids h
    cases h
    simp
  | cons name names ih =>
    intro r hnames
    cases name with
    | none =>
      obtain ⟨hreordered, herror, hids⟩ := ih hnames
      simp only [lookupAll]
      cases hresult : (r.lookupAll names).2 with
      | error e =>
        rw [hresult] at herror
        refine ⟨hreordered, ?_, ?_⟩
        · intro x heq
          exact herror x (by cases heq; rfl)
        · intro ids heq
          cases heq
      | ok ids' =>
        refine ⟨hreordered, by simp [Except.map], ?_⟩
        intro ids heq
        cases heq
        rw [reduceOption_cons_of_none]
        exact hids ids' hresult
    | some name =>
      simp only [lookupAll]
      cases hlookup : r.lookup name with
      | error e =>
        refine ⟨Reordered.refl r, ?_, by simp⟩
        intro x heq
        cases heq
        unfold lookup at hlookup
        split at hlookup <;> cases hlookup
      | ok found =>
        obtain ⟨id, r₁⟩ := found
        obtain ⟨hfirst, ref, href, rfl⟩ := lookup_ok hnames hlookup
        have hnames₁ := (hfirst.registry.map (·.loraName)).nodup_iff.mpr hnames
        obtain ⟨hreordered, herror, hids⟩ := ih hnames₁
        simp only
        cases hresult : (r₁.lookupAll names).2 with
        | error e =>
          rw [hresult] at herror
          refine ⟨hfirst.trans hreordered, ?_, ?_⟩
          · intro x heq
            exact herror x (by cases heq; rfl)
          · intro ids heq
            cases heq
        | ok ids' =>
          refine ⟨hfirst.trans hreordered, by simp [Except.map], ?_⟩
          intro ids heq
          cases heq
          rw [reduceOption_cons_of_some]
          intro id hid
          rcases mem_cons.mp hid with rfl | hid
          · exact ⟨ref, href, rfl⟩
          · obtain ⟨ref', href', hid'⟩ := hids ids' hresult id hid
            exact ⟨ref', hfirst.registry.mem_iff.mp href', hid'⟩

theorem unregister_ok (hids : (r.registry.map (·.loraId)).Nodup)
    (h : r.unregister name = .ok (id, r')) :
    r' = { r with registry := r.registry.filter (·.loraName ≠ name) } ∧
      (∃ ref ∈ r.registry, ref.loraId = id ∧ r.get name = some ref) ∧
      id ∉ r'.registry.map (·.loraId) := by
  unfold unregister at h
  split at h
  · cases h
  · next ref hget =>
    cases h
    obtain ⟨hmem, rfl⟩ := get_some hget
    refine ⟨rfl, ⟨ref, hmem, rfl, hget⟩, ?_⟩
    intro hid
    obtain ⟨ref', hmem', heq⟩ := List.mem_map.mp hid
    obtain ⟨hmem', hne⟩ := mem_filter.mp hmem'
    obtain rfl := inj_on_of_nodup_map hids hmem' hmem heq
    simp at hne

end LoRARegistry

/-! ## Section 3: Registering and unloading -/

namespace World

variable {w : World} {i : Nat} {t : Task}

theorem Counted.register (h : Counted w) (hi : w.tasks[i]? = some t) {ref : LoRARef}
    {lora : LoRARegistry} (hfresh : ref.loraId ∉ w.lora.issued)
    (hok : w.lora.registerAdapter ref = .ok lora)
    (hout : ∀ x, t.outstanding x = 0) (hunl : ∀ x, t.unloads x = 0) {readers waitingWriters : Nat} :
    Counted ⟨lora, readers, waitingWriters, w.tasks.set i .returned, w.held⟩ := by
  unfold LoRARegistry.registerAdapter at hok
  split at hok
  · cases hok
  · next hnone =>
    cases hok
    have hnew : ref.loraId ∉ w.lora.counters := fun hmem => hfresh (h.issued _ hmem)
    -- the rest of the state moves as in any step; only the new counter is left
    have hsame : Counted ⟨w.lora, readers, waitingWriters, w.tasks.set i .returned, w.held⟩ := by
      apply h.step hi _ _ (List.Perm.refl _) rfl rfl
      · intro x
        rw [hout]
        rfl
      · intro x _
        change w.held.count x + 0 + 0 ≤ _
        omega
      · intro x
        rw [hunl]
        rfl
      · trivial
    have hzero := hsame.live _ hnew
    refine ⟨?_, ?_, ?_, ?_, ?_, ?_, hsame.single, ?_, ?_, hsame.fine⟩
    · intro a ha
      rcases mem_append.mp ha with ha | ha
      · exact mem_insert_of_mem (h.registered a ha)
      · obtain rfl := mem_singleton.mp ha
        exact mem_insert_self
    · rw [map_append, nodup_append]
      refine ⟨h.names, nodup_singleton _, ?_⟩
      intro a ha b hb heq
      obtain rfl := mem_singleton.mp hb
      obtain ⟨a', ha', rfl⟩ := List.mem_map.mp ha
      have := find?_eq_none.mp hnone a' ha'
      simp [heq] at this
    · rw [map_append, nodup_append]
      refine ⟨h.distinct, nodup_singleton _, ?_⟩
      intro a ha b hb heq
      obtain rfl := mem_singleton.mp hb
      obtain ⟨a', ha', rfl⟩ := List.mem_map.mp ha
      have hmem := h.registered a' ha'
      rw [heq] at hmem
      exact hnew hmem
    · intro x hx
      rcases mem_insert_iff.mp hx with rfl | hx
      · exact mem_cons_self
      · exact mem_cons_of_mem _ (h.issued x hx)
    · -- the new counter starts at zero, as the id was never issued
      intro x hx
      by_cases heq : x = ref.loraId
      · subst heq
        simp only [update_self]
        exact_mod_cast hzero.1.symm
      · simp only [update_of_ne heq]
        exact hsame.balance x ((mem_insert_iff.mp hx).resolve_left heq)
    · intro x hx
      exact hsame.live x fun hmem => hx (mem_insert_of_mem hmem)
    · intro x hx
      obtain ⟨hmem, hnot⟩ := hsame.unregistered x hx
      refine ⟨mem_insert_of_mem hmem, ?_⟩
      rw [map_append, mem_append, not_or]
      refine ⟨hnot, ?_⟩
      intro hid
      obtain rfl := mem_singleton.mp hid
      exact hnew hmem
    · intro x hx
      obtain ⟨hissued, hnot⟩ := hsame.unloaded x hx
      refine ⟨mem_cons_of_mem _ hissued, ?_⟩
      intro hmem
      rcases mem_insert_iff.mp hmem with rfl | hmem
      · exact hfresh hissued
      · exact hnot hmem

/-- An adapter is taken out of the registry, and the task waits for its counter. -/
theorem Counted.unregister (h : Counted w) (hi : w.tasks[i]? = some t) {name id : String}
    {lora : LoRARegistry} (hok : w.lora.unregister name = .ok (id, lora))
    (hout : ∀ x, t.outstanding x = 0) (hunl : ∀ x, t.unloads x = 0) (t' : Task)
    (readers waitingWriters : Nat) (ht' : t' = .unloading id ∨ t' = .raised (.stillRegistered id)) :
    id ∈ lora.counters ∧ Counted ⟨lora, readers, waitingWriters, w.tasks.set i t', w.held⟩ := by
  obtain ⟨rfl, ⟨ref, href, rfl, -⟩, hgone⟩ := LoRARegistry.unregister_ok h.distinct hok
  have hcounter := h.registered ref href
  -- no task unloads the adapter yet, so this one is alone with it
  have hnone : w.unloads ref.loraId = 0 := by
    by_contra hpos
    exact (h.unregistered _ (Nat.pos_of_ne_zero hpos)).2 (List.mem_map.mpr ⟨ref, href, rfl⟩)
  have hsub :=
    filter_sublist (p := fun a : LoRARef => decide (a.loraName ≠ name)) (l := w.lora.registry)
  have hout' : ∀ x, t'.outstanding x = 0 := by
    intro x
    rcases ht' with rfl | rfl <;> rfl
  have hunc' : ∀ x, t'.uncounted x = 0 := by
    intro x
    rcases ht' with rfl | rfl <;> rfl
  have hunl' : ∀ x, t'.unloads x ≤ if ref.loraId = x then 1 else 0 := by
    intro x
    rcases ht' with rfl | rfl
    · exact le_rfl
    · exact Nat.zero_le _
  have hunlSet := fun x => sum_map_set (Task.unloads x) (b := t') hi
  have hle : ∀ x, ((w.tasks.set i t').map (Task.unloads x)).sum ≤
      w.unloads x + if ref.loraId = x then 1 else 0 := by
    intro x
    have := hunl x
    have := hunl' x
    have := hunlSet x
    unfold unloads
    omega
  refine ⟨hcounter, ?_, ?_, ?_, h.issued, ?_, ?_, ?_, ?_, ?_, ?_⟩
  · intro a ha
    exact h.registered a (mem_of_mem_filter ha)
  · exact (hsub.map _).nodup h.names
  · exact (hsub.map _).nodup h.distinct
  · -- the call leaves the counters as they are
    intro x hx
    have hold := h.balance x hx
    have := sum_map_set (Task.outstanding x) (b := t') hi
    have := hout x
    have := hout' x
    unfold outstanding at hold ⊢
    simp only
    omega
  · intro x hx
    have hold := h.live x hx
    have := sum_map_set (Task.outstanding x) (b := t') hi
    have := sum_map_set (Task.uncounted x) (b := t') hi
    have := hout x
    have := hout' x
    have := hunc' x
    unfold outstanding uncounted at hold ⊢
    simp only
    omega
  · intro x
    have hx := hle x
    have := h.single x
    unfold unloads at hx ⊢
    by_cases heq : ref.loraId = x
    · subst heq
      unfold unloads at hnone
      rw [if_pos rfl] at hx
      simp only
      omega
    · rw [if_neg heq] at hx
      unfold unloads at this
      simp only
      omega
  · intro x hx
    by_cases heq : ref.loraId = x
    · subst heq
      exact ⟨hcounter, hgone⟩
    · have hx' := hle x
      rw [if_neg heq] at hx'
      have hold := h.unregistered x (Nat.lt_of_lt_of_le hx hx')
      exact ⟨hold.1, fun hmem => hold.2 ((hsub.map _).subset hmem)⟩
  · intro x hx
    rcases mem_or_eq_of_mem_set hx with hx | rfl
    · exact h.unloaded x hx
    · rcases ht' with heq | heq <;> cases heq
  · intro s hs
    rcases mem_or_eq_of_mem_set hs with hs | rfl
    · exact h.fine s hs
    · left
      rcases ht' with rfl | rfl <;> trivial

/-- The counter is zero and no increment is left, so it can be deleted. -/
theorem Counted.delCounter (h : Counted w) {id : String} (hi : w.tasks[i]? = some (.unloading id))
    (hzero : w.lora.counts id = 0) (hunc : w.uncounted id = 0) :
    Counted ({ w with lora := w.lora.delCounter id }.goto i (.unloaded id)) := by
  have hone := h.single id
  -- the counter is zero, so nothing holds the adapter
  have hout : w.outstanding id = 0 := by
    by_cases hmem : id ∈ w.lora.counters
    · have := h.balance id hmem
      omega
    · exact (h.live id hmem).1
  have hmem : ∀ x, x ∈ (w.lora.delCounter id).counters ↔ x ∈ w.lora.counters ∧ x ≠ id := by
    intro x
    simp [LoRARegistry.delCounter]
  have hout' : ∀ x, ({ w with lora := w.lora.delCounter id }.goto i (.unloaded id)).outstanding x =
      w.outstanding x := by
    intro x
    have := sum_map_set (Task.outstanding x) (b := .unloaded id) hi
    unfold outstanding
    simp only [goto, Task.outstanding] at this ⊢
    omega
  have hunc' : ∀ x, ({ w with lora := w.lora.delCounter id }.goto i (.unloaded id)).uncounted x =
      w.uncounted x := by
    intro x
    have := sum_map_set (Task.uncounted x) (b := .unloaded id) hi
    unfold uncounted
    simp only [goto, Task.uncounted] at this ⊢
    omega
  have hunl' : ∀ x, ({ w with lora := w.lora.delCounter id }.goto i (.unloaded id)).unloads x +
      (if id = x then 1 else 0) = w.unloads x := by
    intro x
    have := sum_map_set (Task.unloads x) (b := .unloaded id) hi
    unfold unloads
    simp only [goto, Task.unloads] at this ⊢
    omega
  -- the id has left the registry, so no task reaches the counter again
  have hwait := h.unregistered id (by have := hunl' id; rw [if_pos rfl] at this; omega)
  refine ⟨?_, h.names, h.distinct, ?_, ?_, ?_, ?_, ?_, ?_, ?_⟩
  · intro ref href
    refine (hmem _).mpr ⟨h.registered ref href, ?_⟩
    rintro rfl
    exact hwait.2 (List.mem_map.mpr ⟨ref, href, rfl⟩)
  · intro x hx
    exact h.issued x ((hmem x).mp hx).1
  · intro x hx
    rw [hout']
    exact h.balance x ((hmem x).mp hx).1
  · intro x hx
    rw [hout', hunc']
    by_cases heq : x = id
    · subst heq
      exact ⟨hout, hunc⟩
    · exact h.live x fun hin => hx ((hmem x).mpr ⟨hin, heq⟩)
  · intro x
    have := hunl' x
    have := h.single x
    omega
  · intro x hx
    have hx' := hunl' x
    obtain ⟨hin, hnot⟩ := h.unregistered x (by omega)
    refine ⟨(hmem x).mpr ⟨hin, ?_⟩, hnot⟩
    rintro rfl
    rw [if_pos rfl] at hx'
    omega
  · intro x hx
    rcases mem_or_eq_of_mem_set hx with hx | heq
    · obtain ⟨hissued, hnot⟩ := h.unloaded x hx
      exact ⟨hissued, fun hin => hnot ((hmem x).mp hin).1⟩
    · cases heq
      exact ⟨h.issued _ hwait.1, fun hin => ((hmem id).mp hin).2 rfl⟩
  · intro s hs
    rcases mem_or_eq_of_mem_set hs with hs | rfl
    · exact h.fine s hs
    · exact Or.inr ⟨id, rfl⟩

/-! ## Section 4: One event -/

theorem Counted.finish (h : Counted w) (hi : w.tasks[i]? = some t) {lora : LoRARegistry}
    (hlora : w.lora.Reordered lora) {readers waitingWriters : Nat} {t' : Task}
    (hout : ∀ x, t'.outstanding x = t.outstanding x) (hunc : ∀ x, t'.uncounted x = t.uncounted x)
    (hunl : ∀ x, t'.unloads x = t.unloads x) (hfine : t'.Fine) :
    Counted ⟨lora, readers, waitingWriters, w.tasks.set i t', w.held⟩ := by
  apply h.step hi lora _ hlora.registry hlora.counters hlora.issued
  · intro x
    rw [hlora.counts, hout]
  · intro x _
    rw [hout, hunc]
  · exact hunl
  · exact hfine

theorem Counted.waitForZero (h : Counted w) {id : String} (hi : w.tasks[i]? = some (.unloading id))
    (hunc : w.lora.counts id = 0 → w.uncounted id = 0) : Counted (w.waitForZero i id) := by
  have hcounter : id ∈ w.lora.counters := by
    apply (h.unregistered id _).1
    have := sum_map_set (Task.unloads id) (b := .returned) hi
    simp only [Task.unloads, if_true] at this
    unfold unloads
    omega
  simp only [World.waitForZero, hcounter, if_true]
  split
  · next hzero => exact h.delCounter hi hzero (hunc hzero)
  · exact h.finish hi (LoRARegistry.Reordered.refl _) (fun _ => rfl) (fun _ => rfl) (fun _ =>
      rfl) trivial

theorem waitForZero_goto (w : World) (i : Nat) (t : Task) (id : String) :
    (w.goto i t).waitForZero i id = w.waitForZero i id := by
  unfold World.waitForZero
  simp only [goto, set_set]

/-- The task has yet to do the call. -/
structure Begins (w : World) (i : Nat) (call : Call) (t : Task) : Prop where
  here : w.tasks[i]? = some t
  begins : t = .called call ∨ t = .waiting call

section Body

variable {call : Call}

theorem Begins.uncounted (hb : Begins w i call t) (x : String) : t.uncounted x = 0 := by
  rcases hb.begins with rfl | rfl <;> rfl

theorem Begins.unloads (hb : Begins w i call t) (x : String) : t.unloads x = 0 := by
  rcases hb.begins with rfl | rfl <;> rfl

theorem Begins.outstanding (hb : Begins w i call t) (x : String) :
    t.outstanding x = (Task.called call).outstanding x := by
  rcases hb.begins with rfl | rfl
  · rfl
  · cases call <;> rfl

theorem Counted.raise (h : Counted w) (hb : Begins w i call t) (hwrites : call.writes = true)
    {lora : LoRARegistry} (hlora : w.lora.Reordered lora) {e : LoraError}
    (he : ∀ x, e ≠ .missingCounter x) :
    Counted ({ w with lora := lora }.goto i (.raised e)) := by
  apply h.finish hb.here hlora
  · intro x
    rw [hb.outstanding]
    cases call <;> first | rfl | cases hwrites
  · intro x
    rw [hb.uncounted]
    rfl
  · intro x
    rw [hb.unloads]
    rfl
  · cases e <;> first | trivial | exact he _ rfl

theorem Counted.body_register (h : Counted w) {ref : LoRARef} (hb : Begins w i (.register ref) t)
    {w' : World} (hbody : w.body i (.register ref) = some w') : Counted w' := by
  simp only [World.body] at hbody
  split at hbody
  · cases hbody
  · next hfresh =>
    split at hbody
    · next e herror =>
      cases hbody
      apply h.raise hb rfl (LoRARegistry.Reordered.refl _)
      intro x heq
      unfold LoRARegistry.registerAdapter at herror
      split at herror <;> cases herror
      cases heq
    · next lora hok =>
      cases hbody
      exact h.register hb.here hfresh hok hb.outstanding hb.unloads

theorem Counted.body_unload (h : Counted w) {name : String} (hb : Begins w i (.unload name) t)
    (hsafe : ∀ ref, w.lora.get name = some ref → w.lora.counts ref.loraId = 0 →
      w.uncounted ref.loraId = 0)
    {w' : World} (hbody : w.body i (.unload name) = some w') : Counted w' := by
  simp only [World.body] at hbody
  split at hbody
  · next e herror =>
    cases hbody
    apply h.raise hb rfl (LoRARegistry.Reordered.refl _)
    intro x heq
    unfold LoRARegistry.unregister at herror
    split at herror <;> cases herror
    cases heq
  · next id lora hok =>
    cases hbody
    have hafter := fun t' => h.unregister hb.here hok hb.outstanding hb.unloads t' w.readers
      w.waitingWriters
    obtain ⟨hcounter, hunloading⟩ := hafter _ (Or.inl rfl)
    simp only [waitForUnload]
    split
    · exact (hafter _ (Or.inr rfl)).2
    · -- the rest is what the task does when it waits already
      rw [← waitForZero_goto _ i (.unloading id)]
      apply Counted.waitForZero
      · exact hunloading
      · obtain ⟨hlt, -⟩ := List.getElem?_eq_some_iff.mp hb.here
        simp only [goto]
        rw [getElem?_set_self hlt]
      · intro hzero
        obtain ⟨rfl, ⟨ref, -, rfl, hget⟩, -⟩ := LoRARegistry.unregister_ok h.distinct hok
        have hold := hsafe ref hget hzero
        have hset := sum_map_set (Task.uncounted ref.loraId) (b := .unloading ref.loraId) hb.here
        have := hb.uncounted ref.loraId
        simp only [Task.uncounted] at hset
        unfold World.uncounted at hold ⊢
        simp only [goto]
        omega

theorem Counted.body_acquire (h : Counted w) {name : String} (hb : Begins w i (.acquire name) t)
    {w' : World} (hbody : w.body i (.acquire name) = some w') : Counted w' := by
  simp only [World.body] at hbody
  split at hbody
  · next e herror =>
    cases hbody
    apply h.raise hb rfl (LoRARegistry.Reordered.refl _)
    intro x heq
    unfold LoRARegistry.lookup at herror
    split at herror <;> cases herror
    cases heq
  · next id lora hok =>
    obtain ⟨hlora, ref, href, rfl⟩ := LoRARegistry.lookup_ok h.names hok
    have hcounter : ref.loraId ∈ w.lora.counters := h.registered ref href
    rw [if_pos (by rw [hlora.counters]; exact hcounter)] at hbody
    cases hbody
    apply h.step hb.here (lora.add ref.loraId 1) _ hlora.registry hlora.counters hlora.issued
    · intro x
      rw [hb.outstanding, LoRARegistry.add_counts, hlora.counts]
      simp only [Task.outstanding, count_append, count_singleton, beq_iff_eq]
      split <;> push_cast <;> omega
    · intro x hx
      have hne : ref.loraId ≠ x := fun heq => hx (heq ▸ hcounter)
      rw [count_append, count_singleton, if_neg (by simpa using hne)]
      change w.held.count x + 0 + 0 + 0 ≤ _
      omega
    · intro x
      rw [hb.unloads]
      rfl
    · trivial

theorem Counted.body_acquireAll (h : Counted w) {names : List (Option String)}
    (hb : Begins w i (.acquireAll names) t) {w' : World}
    (hbody : w.body i (.acquireAll names) = some w') : Counted w' := by
  obtain ⟨hlora, herror, hids⟩ := LoRARegistry.lookupAll_spec names h.names
  simp only [World.body] at hbody
  split at hbody
  · next lora e heq =>
    cases hbody
    rw [heq] at hlora herror
    apply h.raise hb rfl hlora
    intro x hx
    exact herror x (congrArg _ hx)
  · next lora ids heq =>
    rw [heq] at hlora hids
    have hcounter : ∀ id ∈ ids.reduceOption, id ∈ w.lora.counters := by
      intro id hid
      obtain ⟨ref, href, rfl⟩ := hids ids rfl id hid
      exact h.registered ref href
    have hnone : ids.reduceOption.find? (fun id => decide (id ∉ lora.counters)) = none := by
      rw [find?_eq_none]
      intro id hid
      have hsame : lora.counters = w.lora.counters := hlora.counters
      have := hcounter id hid
      rw [← hsame] at this
      simpa using this
    rw [hnone] at hbody
    cases hbody
    apply h.step hb.here lora _ hlora.registry hlora.counters hlora.issued
    · intro x
      rw [hb.outstanding, hlora.counts]
      rfl
    · intro x hx
      have hzero : ids.reduceOption.count x = 0 := count_eq_zero.mpr fun hid => hx (hcounter x hid)
      change w.held.count x + 0 + ids.reduceOption.count x ≤ _
      omega
    · intro x
      rw [hb.unloads]
      rfl
    · simp only [Task.Fine, append_nil]
      exact List.Perm.refl _

theorem Counted.body_release (h : Counted w) {id : String} (hb : Begins w i (.release id) t)
    {w' : World} (hbody : w.body i (.release id) = some w') : Counted w' := by
  have hcounter : id ∈ w.lora.counters := by
    by_contra hnot
    have hzero := (h.live id hnot).1
    have hset := sum_map_set (Task.outstanding id) (b := .returned) hb.here
    have hout := hb.outstanding id
    simp only [Task.outstanding, if_true] at hout hset
    unfold World.outstanding at hzero
    omega
  simp only [World.body, hcounter, if_true] at hbody
  cases hbody
  apply h.step hb.here (w.lora.add id (-1)) _ (List.Perm.refl _) rfl rfl
  · intro x
    rw [hb.outstanding, LoRARegistry.add_counts]
    simp only [Task.outstanding]
    split <;> push_cast <;> omega
  · intro x _
    change w.held.count x + 0 + 0 ≤ _
    omega
  · intro x
    rw [hb.unloads]
    rfl
  · trivial

theorem Counted.body_releaseAll (h : Counted w) {ids : List (Option String)}
    (hb : Begins w i (.releaseAll ids) t) {w' : World}
    (hbody : w.body i (.releaseAll ids) = some w') : Counted w' := by
  have hnone : ids.reduceOption.find? (fun id => decide (id ∉ w.lora.counters)) = none := by
    rw [find?_eq_none]
    intro id hid
    by_contra hnot
    have hzero := (h.live id (by simpa using hnot)).1
    have hset := sum_map_set (Task.outstanding id) (b := .returned) hb.here
    have hout := hb.outstanding id
    have hpos : 0 < ids.reduceOption.count id := count_pos_iff.mpr hid
    simp only [Task.outstanding] at hout hset
    unfold World.outstanding at hzero
    omega
  simp only [World.body, hnone] at hbody
  cases hbody
  apply h.finish hb.here (LoRARegistry.Reordered.refl _)
  · intro x
    rw [hb.outstanding]
    rfl
  · intro x
    rw [hb.uncounted]
    rfl
  · intro x
    rw [hb.unloads]
    rfl
  · trivial

end Body

theorem Counted.body (h : Counted w) {call : Call} (hb : Begins w i call t)
    (hsafe : ∀ x ∈ w.unloadTarget t, w.lora.counts x = 0 → w.uncounted x = 0)
    {w' : World} (hbody : w.body i call = some w') : Counted w' := by
  cases call with
  | register ref => exact h.body_register hb hbody
  | unload name =>
    apply h.body_unload hb _ hbody
    intro ref hget
    apply hsafe
    rcases hb.begins with rfl | rfl <;> simp [unloadTarget, hget]
  | acquire name => exact h.body_acquire hb hbody
  | acquireAll names => exact h.body_acquireAll hb hbody
  | release id => exact h.body_release hb hbody
  | releaseAll ids => exact h.body_releaseAll hb hbody

theorem Counted.lock (h : Counted w) (readers waitingWriters : Nat) :
    Counted { w with readers := readers, waitingWriters := waitingWriters } :=
  ⟨h.registered, h.names, h.distinct, h.issued, h.balance, h.live, h.single, h.unregistered,
    h.unloaded, h.fine⟩

theorem Counted.wait (h : Counted w) {call : Call} (hb : Begins w i call t)
    (readers waitingWriters : Nat) :
    Counted ({ w with readers := readers, waitingWriters := waitingWriters }.goto i
      (.waiting call)) := by
  apply h.finish hb.here (LoRARegistry.Reordered.refl _)
  · intro x
    rw [hb.outstanding]
    cases call <;> rfl
  · intro x
    rw [hb.uncounted]
    rfl
  · intro x
    rw [hb.unloads]
    rfl
  · trivial

theorem Counted.enter (h : Counted w) {call : Call} (hb : Begins w i call t)
    (hsafe : ∀ x ∈ w.unloadTarget t, w.lora.counts x = 0 → w.uncounted x = 0) {waited : Bool}
    {w' : World} (henter : w.enter i call waited = some w') : Counted w' := by
  unfold World.enter at henter
  split at henter
  · split at henter
    · have hlock := h.lock w.readers (if waited then w.waitingWriters - 1 else w.waitingWriters)
      exact hlock.body ⟨hb.here, hb.begins⟩ hsafe henter
    · cases henter
      exact h.wait hb _ _
  · split at henter
    · exact h.body hb hsafe henter
    · cases henter
      exact h.wait hb _ _

theorem Counted.resume (h : Counted w) (hi : w.tasks[i]? = some t)
    (hsafe : ∀ x ∈ w.unloadTarget t, w.lora.counts x = 0 → w.uncounted x = 0)
    {w' : World} (hresume : w.resume i t = some w') : Counted w' := by
  cases t with
  | called call => exact h.enter ⟨hi, Or.inl rfl⟩ hsafe hresume
  | waiting call => exact h.enter ⟨hi, Or.inr rfl⟩ hsafe hresume
  | incrementing pending counted ids =>
    cases pending with
    | cons id pending => cases hresume
    | nil =>
      cases hresume
      -- everything has been counted, so the ids move from the task to its caller
      have hfine : (Task.incrementing [] counted ids).Fine := by
        rcases h.fine _ (mem_of_getElem? hi) with hfine | ⟨x, heq⟩
        · exact hfine
        · cases heq
      have hcount : ∀ x, counted.count x = ids.reduceOption.count x := fun x => hfine.count_eq x
      apply h.step hi w.lora _ (List.Perm.refl _) rfl rfl
      · intro x
        rw [count_append, ← hcount]
        simp only [Task.outstanding]
        push_cast
        omega
      · intro x _
        rw [count_append, ← hcount]
        simp only [Task.outstanding, Task.uncounted, count_nil]
        omega
      · exact fun _ => rfl
      · trivial
  | decrementing pending =>
    cases pending with
    | cons id pending => cases hresume
    | nil =>
      cases hresume
      exact h.finish hi (LoRARegistry.Reordered.refl _) (fun _ => rfl) (fun _ => rfl) (fun _ =>
        rfl) trivial
  | unloading id =>
    cases hresume
    exact h.waitForZero hi (hsafe id rfl)
  | unloaded id => cases hresume
  | returned => cases hresume
  | raised e => cases hresume

theorem count_eraseIdx {l : List String} {k : Nat} {id : String} (h : l[k]? = some id)
    (x : String) :
    (l.eraseIdx k).count x + (if id = x then 1 else 0) = l.count x := by
  obtain ⟨hlt, rfl⟩ := List.getElem?_eq_some_iff.mp h
  have hperm := getElem_cons_eraseIdx_perm hlt
  rw [← hperm.count_eq x, count_cons]
  simp only [beq_iff_eq]

theorem Counted.child (h : Counted w) (hi : w.tasks[i]? = some t) {k : Nat} {w' : World}
    (hchild : w.child i k t = some w') : Counted w' := by
  cases t with
  | incrementing pending counted ids =>
    simp only [World.child, bind_eq_bind, bind_eq_some_iff] at hchild
    obtain ⟨id, hid, hw'⟩ := hchild
    cases hw'
    have hmem : id ∈ pending := mem_of_getElem? hid
    -- a pending increment keeps the counter from being deleted
    have hcounter : id ∈ w.lora.counters := by
      by_contra hnot
      have hzero := (h.live id hnot).2
      have hset := sum_map_set (Task.uncounted id) (b := .returned) hi
      have hpos : 0 < pending.count id := count_pos_iff.mpr hmem
      simp only [Task.uncounted] at hset
      unfold World.uncounted at hzero
      omega
    apply h.step hi (w.lora.add id 1) _ (List.Perm.refl _) rfl rfl
    · intro x
      rw [LoRARegistry.add_counts]
      simp only [Task.outstanding, count_cons, beq_iff_eq]
      split <;> push_cast <;> omega
    · intro x hx
      have hne : id ≠ x := fun heq => hx (heq ▸ hcounter)
      have herase := count_eraseIdx hid x
      rw [if_neg hne] at herase
      simp only [Task.outstanding, Task.uncounted, count_cons, beq_iff_eq, if_neg hne]
      omega
    · exact fun _ => rfl
    · rcases h.fine _ (mem_of_getElem? hi) with hfine | ⟨x, heq⟩
      -- the id has moved from the pending ones to the counted ones
      · obtain ⟨hlt, rfl⟩ := List.getElem?_eq_some_iff.mp hid
        exact (perm_middle.trans ((getElem_cons_eraseIdx_perm hlt).append_right counted)).trans
          hfine
      · cases heq
  | decrementing pending =>
    simp only [World.child, bind_eq_bind, bind_eq_some_iff] at hchild
    obtain ⟨id, hid, hw'⟩ := hchild
    cases hw'
    have herase := count_eraseIdx hid
    apply h.step hi (w.lora.add id (-1)) _ (List.Perm.refl _) rfl rfl
    · intro x
      have := herase x
      rw [LoRARegistry.add_counts]
      simp only [Task.outstanding]
      by_cases heq : id = x
      · rw [if_pos heq] at this ⊢
        omega
      · rw [if_neg heq] at this ⊢
        omega
    · intro x _
      have := herase x
      simp only [Task.outstanding, Task.uncounted]
      omega
    · exact fun _ => rfl
    · trivial
  | called call => cases hchild
  | waiting call => cases hchild
  | unloading id => cases hchild
  | unloaded id => cases hchild
  | returned => cases hchild
  | raised e => cases hchild

/-- A new task takes its acquisitions out of the hands of the tokenizer manager. -/
theorem Counted.spawn (h : Counted w) {c : Call} {held : List String}
    (hheld : ∀ x, held.count x + (Task.called c).outstanding x = w.held.count x) :
    Counted { w with held := held, tasks := w.tasks ++ [.called c] } := by
  have hout : ∀ x, World.outstanding { w with held := held, tasks := w.tasks ++ [.called c] } x =
      w.outstanding x := by
    intro x
    have := hheld x
    simp only [World.outstanding, map_append, map_singleton, sum_append, sum_singleton]
    omega
  have hunc : ∀ x, World.uncounted { w with held := held, tasks := w.tasks ++ [.called c] } x =
      w.uncounted x := by
    intro x
    simp [World.uncounted, Task.uncounted]
  have hunl : ∀ x, World.unloads { w with held := held, tasks := w.tasks ++ [.called c] } x =
      w.unloads x := by
    intro x
    simp [World.unloads, Task.unloads]
  refine ⟨h.registered, h.names, h.distinct, h.issued, ?_, ?_, ?_, ?_, ?_, ?_⟩
  · intro x hx
    rw [hout]
    exact h.balance x hx
  · intro x hx
    rw [hout, hunc]
    exact h.live x hx
  · intro x
    rw [hunl]
    exact h.single x
  · intro x hx
    rw [hunl] at hx
    exact h.unregistered x hx
  · intro x hx
    rcases mem_append.mp hx with hx | hx
    · exact h.unloaded x hx
    · cases mem_singleton.mp hx
  · intro s hs
    rcases mem_append.mp hs with hs | hs
    · exact h.fine s hs
    · obtain rfl := mem_singleton.mp hs
      exact Or.inl trivial

theorem Counted.call (h : Counted w) {c : Call} {w' : World} (hcall : w.call c = some w') :
    Counted w' := by
  cases c with
  | release id =>
    simp only [World.call] at hcall
    split at hcall
    · next hmem =>
      cases hcall
      apply h.spawn
      intro x
      simp only [Task.outstanding, count_erase, beq_iff_eq]
      split
      · next heq =>
        subst heq
        have := count_pos_iff.mpr hmem
        omega
      · omega
    · cases hcall
  | releaseAll ids =>
    simp only [World.call] at hcall
    split at hcall
    · next hle =>
      cases hcall
      apply h.spawn
      intro x
      simp only [Task.outstanding, count_diff]
      by_cases hmem : x ∈ ids.reduceOption
      · have := hle x hmem
        omega
      · rw [count_eq_zero.mpr hmem]
        omega
    · cases hcall
  | register ref =>
    cases hcall
    exact h.spawn fun _ => rfl
  | unload name =>
    cases hcall
    exact h.spawn fun _ => rfl
  | acquire name =>
    cases hcall
    exact h.spawn fun _ => rfl
  | acquireAll names =>
    cases hcall
    exact h.spawn fun _ => rfl

theorem counted_step {w' : World} {e : Event} (h : Counted w) (hsafe : w.NotOvertaken e)
    (hstep : Lora.step w e = some w') : Counted w' := by
  cases e with
  | call c => exact h.call hstep
  | resume i =>
    simp only [Lora.step, bind_eq_bind, bind_eq_some_iff] at hstep
    obtain ⟨t, hi, hresume⟩ := hstep
    apply h.resume hi _ hresume
    intro x hx
    apply hsafe
    rw [hi]
    exact hx
  | child i k =>
    simp only [Lora.step, bind_eq_bind, bind_eq_some_iff] at hstep
    obtain ⟨t, hi, hchild⟩ := hstep
    exact h.child hi hchild

/-! ## Section 5: Every run -/

/-- Over every order of the calls and of the tasks in which no unload completes before a list
acquisition that has looked the adapter up has counted it. -/
theorem protected_of_notOvertaken {events : List Event}
    (hsafe : Lib.Along Lora.step NotOvertaken init events)
    (hrun : Lib.run Lora.step init events = some w) :
    w.Protected :=
  (Lib.invariant_of_run Counted (fun _ _ _ h hP hstep => counted_step h hP hstep) counted_init hsafe
    hrun).protected

/-- A list acquisition is counted, an unload waits for it, and the release lets it go. -/
def waitedUnload : List Event :=
  [.call (.register ⟨"id", "a"⟩), .resume 0, .call (.acquireAll [some "a", none]), .resume 1,
    .child 1 0, .resume 1, .call (.unload "a"), .resume 2, .call (.release "id"), .resume 3,
    .resume 2]

theorem waitedUnload_protected :
    ∃ w, Lib.run Lora.step init waitedUnload = some w ∧ .unloaded "id" ∈ w.tasks ∧ w.Protected := by
  have hsafe : Lib.Along Lora.step NotOvertaken init waitedUnload := by decide
  obtain ⟨w, hrun⟩ := isSome_iff_exists.mp
    (by decide : (Lib.run Lora.step init waitedUnload).isSome = true)
  refine ⟨w, hrun, ?_, protected_of_notOvertaken hsafe hrun⟩
  have htasks : (Lib.run Lora.step init waitedUnload).map (·.tasks) =
      some [.returned, .returned, .unloaded "id", .returned] := by decide
  rw [hrun] at htasks
  simp [Option.some.inj htasks]

/-- The unload runs between the lookup of a list acquisition and its increment. -/
def overtakingUnload : List Event :=
  [.call (.register ⟨"id", "a"⟩), .resume 0, .call (.acquireAll [some "a"]), .call (.unload "a"),
    .resume 1, .resume 2, .child 1 0, .resume 1]

theorem unload_overtakes :
    ¬ ∀ events w, Lib.run Lora.step init events = some w → w.Protected := by
  intro hall
  obtain ⟨w, hrun⟩ := isSome_iff_exists.mp
    (by decide : (Lib.run Lora.step init overtakingUnload).isSome = true)
  have hfinal : (Lib.run Lora.step init overtakingUnload).map (fun w => (w.held, w.tasks)) =
      some (["id"], [.returned, .returned, .unloaded "id"]) := by decide
  rw [hrun] at hfinal
  obtain ⟨hheld, htasks⟩ := Prod.mk.inj (Option.some.inj hfinal)
  have hprotected := (hall _ _ hrun).notUnloaded "id"
  rw [outstanding, hheld, htasks] at hprotected
  exact hprotected (by decide) (by simp)

end World

end Sglang.Lora
