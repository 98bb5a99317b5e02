import Mathlib.Data.List.AList
import Sglang.Lib.PageTrieMutation
import Sglang.MemCache.RadixKey

/-!
# Tree Links

The radix caches of `mem_cache/` keep different bookkeeping in their `TreeNode` classes but
link nodes the same way: a parent, a dictionary of children by `child_key`, a key segment and
the slots of that segment. `TreeLinks` is that common part and `skeleton` forgets everything
else, so that each cache's heap of nodes is a `PageTrie` over the namespaced letters.
-/

namespace Sglang.MemCache

open List Function
open Lib

/-! ## Section 1: Links and skeletons -/

abbrev Children := AList (fun _ : RadixKey.ChildKey => Nat)

/-- The part of a `TreeNode` that links it into the tree. -/
structure TreeLinks where
  parent : Option Nat
  children : Children
  key : RadixKey
  value : List Nat

def TreeLinks.cell (l : TreeLinks) : PageTrie.Cell Letter RadixKey.ChildKey where
  parent := l.parent
  label := l.key.letters
  child := fun k => l.children.lookup k

/-- The page trie behind a heap of nodes. -/
def skeleton {N : Type} (links : N → TreeLinks) (nodes : Nat → Option N) :
    PageTrie.Heap Letter RadixKey.ChildKey :=
  fun i => (nodes i).map fun n => (links n).cell

/-- The slots of the nodes, as a labelling. -/
def valueOf {N : Type} (links : N → TreeLinks) (nodes : Nat → Option N) (i : Nat) : List Nat :=
  ((nodes i).map fun n => (links n).value).getD []

section Skeleton

variable {N : Type} {links : N → TreeLinks} {nodes : Nat → Option N}

theorem skeleton_at {i : Nat} {n : N} (h : nodes i = some n) :
    skeleton links nodes i = some (links n).cell := by
  simp [skeleton, h]

theorem skeleton_none {i : Nat} (h : nodes i = none) : skeleton links nodes i = none := by
  simp [skeleton, h]

theorem skeleton_some {i : Nat} {c : PageTrie.Cell Letter RadixKey.ChildKey}
    (h : skeleton links nodes i = some c) : ∃ n, nodes i = some n ∧ c = (links n).cell := by
  obtain ⟨n, hn, rfl⟩ := Option.map_eq_some_iff.mp h
  exact ⟨n, hn, rfl⟩

theorem valueOf_at {i : Nat} {n : N} (h : nodes i = some n) :
    valueOf links nodes i = (links n).value := by
  simp [valueOf, h]

theorem skeleton_update (i : Nat) (v : Option N) :
    skeleton links (update nodes i v) =
      update (skeleton links nodes) i (v.map fun n => (links n).cell) := by
  funext j
  by_cases hj : j = i
  · subst hj
    simp [skeleton]
  · simp [skeleton, update_of_ne hj]

theorem valueOf_update (i : Nat) (v : Option N) :
    valueOf links (update nodes i v) =
      update (valueOf links nodes) i ((v.map fun n => (links n).value).getD []) := by
  funext j
  by_cases hj : j = i
  · subst hj
    simp [valueOf]
  · simp [valueOf, update_of_ne hj]

end Skeleton

/-! ## Section 2: Dictionaries as functions -/

theorem lookup_insert_eq_update (ch : Children) (k : RadixKey.ChildKey) (n : Nat) :
    (fun j => (ch.insert k n).lookup j) = update (fun j => ch.lookup j) k (some n) := by
  funext j
  by_cases hj : j = k
  · subst hj
    simp
  · simp [update_of_ne hj, AList.lookup_insert_ne hj]

theorem lookup_erase_eq_update (ch : Children) (k : RadixKey.ChildKey) :
    (fun j => (ch.erase k).lookup j) = update (fun j => ch.lookup j) k none := by
  funext j
  by_cases hj : j = k
  · subst hj
    simp
  · simp [update_of_ne hj, AList.lookup_erase_ne hj]

theorem lookup_singleton_eq_update (k : RadixKey.ChildKey) (n : Nat) :
    (fun j => (AList.singleton k n : Children).lookup j) =
      update (fun _ => none) k (some n) := by
  have h := lookup_insert_eq_update ∅ k n
  rw [AList.insert_empty] at h
  rw [h]
  congr 1

theorem entries_eq_nil_iff (ch : Children) : ch.entries = [] ↔ ∀ k, ch.lookup k = none := by
  constructor
  · intro h k
    rw [AList.lookup_eq_none, AList.mem_keys, AList.keys, h]
    simp
  · intro h
    cases he : ch.entries with
    | nil => rfl
    | cons e es =>
      have hmem : e.1 ∈ ch := by
        rw [AList.mem_keys, AList.keys, he]
        simp
      exact absurd hmem (AList.lookup_eq_none.mp (h e.1))

theorem childKey_eq_ofLetters {k : RadixKey} {ps : Nat} (hps : 0 < ps) (h : ps ≤ k.len) :
    k.childKey ps = RadixKey.ChildKey.ofLetters (k.letters.take ps) := by
  have hne : (k.childKey ps).plain ≠ [] := by
    intro hnil
    have := congrArg List.length (RadixKey.childKey_plain h)
    simp [hnil] at this
    omega
  rw [← RadixKey.childKey_letters h, RadixKey.ChildKey.ofLetters_letters hne]

/-- Keys that fill a page and share their `child_key` are in the same mode and namespace. -/
theorem compatible_of_childKey_eq {k other : RadixKey} {ps : Nat} (hps : 0 < ps)
    (hk : ps ≤ k.len) (ho : ps ≤ other.len) (h : k.childKey ps = other.childKey ps) :
    k.isBigram = other.isBigram ∧ k.extraKey = other.extraKey := by
  have hplain := congrArg RadixKey.ChildKey.plain h
  rw [RadixKey.childKey_plain hk, RadixKey.childKey_plain ho] at hplain
  refine ⟨?_, congrArg RadixKey.ChildKey.extraKey h⟩
  -- the first unit is a pair in one mode and a single token in the other
  have hhead : ∀ q : RadixKey, ps ≤ q.len →
      ∃ u, (q.units.take ps).head? = some u ∧ (q.isBigram = true ↔ ∃ a b, u = .bigram a b) := by
    intro q hq
    have hpos : 0 < (q.units.take ps).length := by simp; omega
    obtain ⟨u, us, hus⟩ := exists_cons_of_length_pos hpos
    refine ⟨u, by rw [hus]; rfl, ?_⟩
    have hmem : u ∈ q.units := mem_of_mem_take (by rw [hus]; simp)
    unfold RadixKey.units at hmem
    cases hb : q.isBigram
    · simp only [hb, Bool.false_eq_true, if_false, mem_map] at hmem
      obtain ⟨t, _, rfl⟩ := hmem
      simp
    · simp only [hb, if_true] at hmem
      obtain ⟨i, hi, rfl⟩ := getElem_of_mem hmem
      simp [bigrams]
  obtain ⟨u, hu, hiff⟩ := hhead k hk
  obtain ⟨u', hu', hiff'⟩ := hhead other ho
  rw [hplain, hu'] at hu
  cases hu
  cases hb : k.isBigram <;> cases hb' : other.isBigram <;> simp_all

end Sglang.MemCache
