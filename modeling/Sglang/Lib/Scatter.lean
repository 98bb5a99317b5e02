import Mathlib.Logic.Function.Basic
import Mathlib.Data.List.Nodup
import Mathlib.Tactic

/-!
# Scatters into Tables

`t[keys] = values` as a list of point writes, later writes winning.

- `scatter_cases`: an entry is the old one or one of those written,
- `scatter_eq`, `scatter_of_not_mem`: the entry of a key that is written once, or not at all,
- `scatter_const`: one value is written everywhere,
- `scatter_congr`: a table matters only where it is not written,
- `scatter_const_comm`: writes to different keys commute,
- `Overwrites`: a table after writes in any order, which is unique where they agree.
-/

namespace Sglang.Lib

open List Function

variable {κ β : Type*} [DecidableEq κ]

/-- Write `t[w.1] = w.2` for all pairs, in order. -/
def scatter (t : κ → β) (ws : List (κ × β)) : κ → β :=
  ws.foldl (fun t w => update t w.1 w.2) t

@[simp] theorem scatter_nil (t : κ → β) : scatter t [] = t := rfl

variable (t : κ → β) {ws : List (κ × β)}

theorem scatter_cons (w : κ × β) (ws : List (κ × β)) :
    scatter t (w :: ws) = scatter (update t w.1 w.2) ws := rfl

theorem scatter_cases (ws : List (κ × β)) :
    ∀ {t : κ → β} (k : κ), ((∀ b, (k, b) ∉ ws) ∧ scatter t ws k = t k) ∨
      (k, scatter t ws k) ∈ ws := by
  induction ws with
  | nil => exact fun k => .inl ⟨by simp, rfl⟩
  | cons w ws ih =>
    intro t k
    rw [scatter_cons]
    rcases ih (t := update t w.1 w.2) k with ⟨hnot, heq⟩ | hmem
    · by_cases hk : k = w.1
      · -- the last write to `k` is this one
        refine .inr ?_
        rw [heq, hk, update_self]
        exact mem_cons_self ..
      · refine .inl ⟨?_, ?_⟩
        · intro b hb
          rcases mem_cons.mp hb with hb | hb
          · exact hk (congrArg Prod.fst hb)
          · exact hnot b hb
        · rw [heq, update_of_ne hk]
    · exact .inr (mem_cons_of_mem _ hmem)

theorem scatter_of_not_mem {t : κ → β} {k : κ} (h : k ∉ ws.map Prod.fst) :
    scatter t ws k = t k := by
  rcases scatter_cases _ (t := t) k with ⟨_, heq⟩ | hmem
  · exact heq
  · exact absurd (mem_map.mpr ⟨_, hmem, rfl⟩) h

theorem scatter_eq (hnodup : (ws.map Prod.fst).Nodup) {t : κ → β} {k : κ}
    {b : β} (h : (k, b) ∈ ws) : scatter t ws k = b := by
  rcases scatter_cases _ (t := t) k with ⟨hnot, _⟩ | hmem
  · exact absurd h (hnot b)
  · exact congrArg Prod.snd (inj_on_of_nodup_map hnodup hmem h rfl)

theorem scatter_const (ks : List κ) (b : β) (k : κ) :
    scatter t (ks.map fun k => (k, b)) k = if k ∈ ks then b else t k := by
  split
  · next hk =>
    rcases scatter_cases (ks.map fun k => (k, b)) (t := t) k with ⟨hnot, _⟩ | hmem
    · exact absurd (mem_map.mpr ⟨k, hk, rfl⟩) (hnot b)
    · obtain ⟨_, _, heq⟩ := mem_map.mp hmem
      exact (congrArg Prod.snd heq).symm
  · next hk =>
    refine scatter_of_not_mem ?_
    simpa [comp_def] using hk

theorem scatter_congr : ∀ {t t' : κ → β} {k : κ},
    (k ∉ ws.map Prod.fst → t k = t' k) → scatter t ws k = scatter t' ws k := by
  induction ws with
  | nil => exact fun h => h (by simp)
  | cons w ws ih =>
    intro t t' k h
    rw [scatter_cons, scatter_cons]
    refine ih fun hk => ?_
    by_cases hkw : k = w.1
    · rw [hkw, update_self, update_self]
    · rw [update_of_ne hkw, update_of_ne hkw]
      refine h ?_
      simp only [map_cons, mem_cons, not_or]
      exact ⟨hkw, hk⟩

theorem scatter_const_comm {ks : List κ} (b : β)
    (hdisj : ∀ k ∈ ks, k ∉ ws.map Prod.fst) :
    scatter (scatter t ws) (ks.map fun k => (k, b)) =
      scatter (scatter t (ks.map fun k => (k, b))) ws := by
  funext k
  rw [scatter_const]
  split
  · next hk => rw [scatter_of_not_mem (hdisj k hk), scatter_const, if_pos hk]
  · next hk =>
    refine scatter_congr fun _ => ?_
    rw [scatter_const, if_neg hk]

/-! ## Writes in any order -/

/-- `t'` is `t` after the writes of `W`, in some order: a key has a value that is written to it, or
keeps its own where none is. -/
def Overwrites {κ β : Type*} (W : κ → β → Prop) (t t' : κ → β) : Prop :=
  ∀ k, ((∀ b, ¬ W k b) ∧ t' k = t k) ∨ W k (t' k)

theorem overwrites_scatter (ws : List (κ × β)) :
    Overwrites (fun k b => (k, b) ∈ ws) t (scatter t ws) := fun k => scatter_cases ws k

namespace Overwrites

omit [DecidableEq κ]

variable {W W' : κ → β → Prop} {t t' t'' : κ → β}

theorem congr (h : Overwrites W t t') (hiff : ∀ k b, W k b ↔ W' k b) : Overwrites W' t t' := by
  have heq : W = W' := by
    funext k b
    exact propext (hiff k b)
  rwa [← heq]

theorem refl (t : κ → β) : Overwrites (fun _ _ => False) t t := fun _ => .inl ⟨fun _ h => h, rfl⟩

theorem trans (h : Overwrites W t t') (h' : Overwrites W' t' t'') :
    Overwrites (fun k b => W k b ∨ W' k b) t t'' := by
  intro k
  rcases h' k with ⟨hnot', heq'⟩ | hmem'
  · rcases h k with ⟨hnot, heq⟩ | hmem
    · exact .inl ⟨fun b hb => hb.elim (hnot b) (hnot' b), heq'.trans heq⟩
    · exact .inr (.inl (by rwa [heq']))
  · exact .inr (.inr hmem')

theorem apply_eq (h : Overwrites W t t') {k : κ} {b : β} (hmem : W k b)
    (hval : ∀ c, W k c → c = b) : t' k = b := by
  rcases h k with ⟨hnot, _⟩ | hmem'
  · exact absurd hmem (hnot b)
  · exact hval _ hmem'

theorem unique (h : Overwrites W t t') (h' : Overwrites W t t'')
    (hfun : ∀ k b c, W k b → W k c → b = c) :
    t' = t'' := by
  funext k
  rcases h k with ⟨hnot, heq⟩ | hmem
  · rcases h' k with ⟨_, heq'⟩ | hmem'
    · rw [heq, heq']
    · exact absurd hmem' (hnot _)
  · rcases h' k with ⟨hnot', _⟩ | hmem'
    · exact absurd hmem (hnot' _)
    · exact hfun k _ _ hmem hmem'

theorem foldlM {σ α : Type*} {view : σ → κ → β} {op : σ → α → Option σ} {V : α → κ → β → Prop}
    {as : List α}
    (hop : ∀ a ∈ as, ∀ s, ∃ s', op s a = some s' ∧ Overwrites (V a) (view s) (view s')) :
    ∀ s, ∃ s', as.foldlM op s = some s' ∧ Overwrites (fun k b => ∃ a ∈ as, V a k b) (view s)
    (view s') := by
  induction as with
  | nil => exact fun s => ⟨s, rfl, (refl _).congr (by simp)⟩
  | cons a as ih =>
    intro s
    obtain ⟨s₁, hs₁, hfirst⟩ := hop a (mem_cons_self ..) s
    obtain ⟨s₂, hs₂, hrest⟩ := ih (fun b hb => hop b (mem_cons_of_mem _ hb)) s₁
    refine ⟨s₂, ?_, (hfirst.trans hrest).congr fun k b => ?_⟩
    · rw [foldlM_cons, hs₁]
      exact hs₂
    · simp only [mem_cons, exists_eq_or_imp]

end Overwrites

end Sglang.Lib
