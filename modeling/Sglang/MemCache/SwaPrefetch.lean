import Sglang.MemCache.UnifiedTree

/-!
# Committing a Prefetched SWA Window

Model of `_attach_swa_host_value` and `_commit_prefetch`
(`unified_cache_components/swa_component.py`). A buffer for the last pages of a prefetched prefix is
laid over the path from the inserted leaf up to the anchor: nodes without an SWA host value take
their part of it, and every other part is released.

- `fillNode_spec`: what one node of the walk does,
- `commitLoop_spec`: the walk from any node of the path,
- `commitPrefetch_exact`: every slot of the buffer is placed at its token or released.
-/

namespace Sglang.MemCache.Unified

open List Option Function
open Lib

/-- `InsertResult`, as far as a prefetch reads it. -/
structure InsertResult where
  prefixLen : Nat
  totalLen : Nat := 0
  insertedHostNode : Option Nat := none

namespace UnifiedCache

/-! ## Section 1: The code -/

def releaseSwaHost (s : UnifiedCache) (hostIndices : Option (List Nat)) : UnifiedCache :=
  match hostIndices with
  | none => s
  | some l => if 0 < l.length then { s with hostMemRelease := s.hostMemRelease ++ [l] } else s

/-- `cd.host_value = host_indices.clone()` for the SWA data of a node. -/
def setSwaHost (hostIndices : List Nat) (n : UnifiedTreeNode) : UnifiedTreeNode :=
  let cd := n.componentData .swa
  { n with componentData := update n.componentData .swa { cd with hostValue := some hostIndices } }

/-- The host list of the SWA component in `_attach_swa_host_value`. -/
def enterHostLru (cd : ComponentData) (node : Nat) (hostLru : List Nat) : Option (List Nat) :=
  if cd.value.isNone ∧ node ∉ hostLru then insertMru hostLru node else some hostLru

def attachSwaHostValue (s : UnifiedCache) (node : Nat) (hostIndices : List Nat) :
    Option UnifiedCache := do
  let n ← s.nodes node
  let s := s.modifyNode node (setSwaHost hostIndices)
  let hostLru ← enterHostLru (n.componentData .swa) node (s.hostLruLists .swa)
  let s := { s with hostLruLists := update s.hostLruLists .swa hostLru }.updateEvictableLeafSets
    node
  some (n.parent.elim s s.updateEvictableLeafSets)

/-- The body of the loop of `_commit_prefetch` up to the assignment of `pos`. -/
def fillNode (cfg : UnifiedConfig) (hostIndices : List Nat) (loadedStart : Int) (s : UnifiedCache)
    (pos : Int) (cur : Nat) : Option UnifiedCache := do
  let n ← s.nodes cur
  let nodeStart := pos - n.key.len
  -- Intersection of the node's range and the buffer.
  let fillStart := max nodeStart loadedStart
  let fillLen := pos - fillStart
  let bufOff := fillStart - loadedStart
  let slice := pySlice hostIndices bufOff.toNat (bufOff + fillLen).toNat
  if (n.componentData .swa).hostValue.isNone ∧ 0 < fillLen then
    if nodeStart < fillStart then do
      let (s, _) ← s.splitNode cfg n.key cur (fillStart - nodeStart).toNat
      s.attachSwaHostValue cur slice
    else s.attachSwaHostValue cur slice
  else some (s.releaseSwaHost (some slice))

/-- The walk of `_commit_prefetch` from the leaf to the anchor: the state and `pos` behind it. -/
def commitLoop (cfg : UnifiedConfig) (anchor : Nat) (hostIndices : List Nat) (loadedStart : Int) :
    Nat → UnifiedCache → Int → Nat → Option (UnifiedCache × Int)
  | 0, _, _, _ => none
  | fuel + 1, s, pos, cur =>
    if cur ≠ anchor ∧ loadedStart < pos then do
      let n ← s.nodes cur
      let s ← s.fillNode cfg hostIndices loadedStart pos cur
      let parent ← (s.nodes cur).bind UnifiedTreeNode.parent
      commitLoop cfg anchor hostIndices loadedStart fuel s (pos - n.key.len) parent
    else some (s, pos)

/-- The last statement of `_commit_prefetch`: the part of the buffer in front of the path. -/
def releaseOutside (hostIndices : List Nat) (loadedStart : Int) (s : UnifiedCache) (pos : Int) :
    UnifiedCache :=
  if loadedStart < pos then s.releaseSwaHost (some (hostIndices.take (pos - loadedStart).toNat))
    else s

/-- `_commit_prefetch`; `transfers` are their host indices, and `hitPages` is what
`extra_pool_hit_pages` has for the SWA pool. A path has at most as many nodes as were ever
created. -/
def commitPrefetch (cfg : UnifiedConfig) (s : UnifiedCache) (anchor : Nat)
    (transfers : List (Option (List Nat))) (insertResult : Option InsertResult)
    (hitPages : Option Nat) : Option UnifiedCache :=
  match transfers with
  | [] => some s
  | hostIndices :: _ =>
    let windowRequirePages := (hostIndices.map fun l => l.length / cfg.pageSize).getD 0
    let loadedPages := hitPages.getD 0
    match insertResult.bind fun r => r.insertedHostNode.map fun target => (r, target) with
    | none => some (s.releaseSwaHost hostIndices)
    | some (result, target) =>
      if windowRequirePages = 0 ∨ loadedPages < windowRequirePages then
        some (s.releaseSwaHost hostIndices)
      else do
        let hostIndices ← hostIndices
        let loadedStart : Int := result.totalLen - windowRequirePages * cfg.pageSize
        let (s, pos) ← commitLoop cfg anchor hostIndices loadedStart
          (s.counter + 1) s result.totalLen target
        some (releaseOutside hostIndices loadedStart s pos)

/-! ## Section 2: Paths -/

/-- The nodes from `cur` up to the anchor, which is left out. -/
inductive PathBelow (s : UnifiedCache) (anchor : Nat) : Nat → List Nat → Prop where
  | anchor (h : (s.view anchor).isSome) : PathBelow s anchor anchor []
  | step {cur p : Nat} {v : HostView} {path : List Nat} (hv : s.view cur = some v)
      (hne : cur ≠ anchor)
      (hp : v.parent = some p) (rest : PathBelow s anchor p path) : PathBelow s anchor cur
      (cur :: path)

def keyLen (s : UnifiedCache) (i : Nat) : Nat := ((s.view i).map fun v => v.key.len).getD 0

def pathLen (s : UnifiedCache) (path : List Nat) : Nat := (path.map s.keyLen).sum

def hostOf (s : UnifiedCache) (i : Nat) : Option (List Nat) := (s.view i).bind HostView.hostValue

variable {cfg : UnifiedConfig} {s s₁ s' : UnifiedCache} {anchor cur : Nat} {path : List Nat}

theorem keyLen_at {i : Nat} {v : HostView} (h : s.view i = some v) : s.keyLen i = v.key.len := by
  rw [keyLen, h]
  rfl

theorem hostOf_at {i : Nat} {v : HostView} (h : s.view i = some v) : s.hostOf i = v.hostValue := by
  rw [hostOf, h]
  rfl

theorem PathBelow.live (h : PathBelow s anchor cur path) : (s.view cur).isSome := by
  cases h with
  | anchor hsome => exact hsome
  | step hv _ _ _ =>
    rw [hv]
    rfl

theorem PathBelow.unique {path' : List Nat} (h : PathBelow s anchor cur path)
    (h' : PathBelow s anchor cur path') :
    path = path' := by
  induction h generalizing path' with
  | anchor _ =>
    cases h' with
    | anchor _ => rfl
    | step _ hne _ _ => exact absurd rfl hne
  | step hv hne hp _ ih =>
    cases h' with
    | anchor _ => exact absurd rfl hne
    | step hv' _ hp' rest' =>
      rw [hv] at hv'
      cases hv'
      rw [hp] at hp'
      cases hp'
      rw [ih rest']

theorem PathBelow.of_mem (h : PathBelow s anchor cur path) {i : Nat} (hi : i ∈ path) :
    (∃ v, s.view i = some v) ∧ ∃ l, PathBelow s anchor i l ∧ l.length ≤ path.length := by
  induction h with
  | anchor _ => cases hi
  | step hv hne hp rest ih =>
    rcases mem_cons.mp hi with rfl | hi
    · exact ⟨⟨_, hv⟩, _, .step hv hne hp rest, Nat.le_refl _⟩
    · obtain ⟨hlive, l, hl, hle⟩ := ih hi
      exact ⟨hlive, l, hl, Nat.le_succ_of_le hle⟩

theorem PathBelow.not_mem (h : PathBelow s anchor cur (cur :: path)) : cur ∉ path := by
  intro hmem
  cases h with
  | step hv hne hp rest =>
    obtain ⟨-, l, hl, hle⟩ := rest.of_mem hmem
    have := (PathBelow.step hv hne hp rest).unique hl
    rw [← this, length_cons] at hle
    omega

theorem PathBelow.nodup (h : PathBelow s anchor cur path) : path.Nodup := by
  induction h with
  | anchor _ => exact nodup_nil
  | step hv hne hp rest ih => exact nodup_cons.mpr ⟨(PathBelow.step hv hne hp rest).not_mem, ih⟩

theorem PathBelow.congr (h : PathBelow s anchor cur path) (hanchor : (s₁.view anchor).isSome)
    (hsame : ∀ i ∈ path, s₁.view i = s.view i) : PathBelow s₁ anchor cur path := by
  induction h with
  | anchor _ => exact .anchor hanchor
  | step hv hne hp _ ih =>
    exact .step ((hsame _ mem_cons_self).trans hv) hne hp (ih fun i hi =>
      hsame i (mem_cons_of_mem _ hi))

theorem PathBelow.anchor_live (h : PathBelow s anchor cur path) : (s.view anchor).isSome := by
  induction h with
  | anchor h => exact h
  | step _ _ _ _ ih => exact ih

theorem pathLen_congr (hsame : ∀ i ∈ path, s₁.view i = s.view i) :
    s₁.pathLen path = s.pathLen path := by
  unfold pathLen
  congr 1
  apply map_congr_left
  intro i hi
  rw [keyLen, keyLen, hsame i hi]

/-! ## Section 3: One node of the walk -/

/-- The part of the buffer between two token positions. -/
def window (buffer : List Nat) (loadedStart : Int) (left right : Nat) : List Nat :=
  pySlice buffer (left - loadedStart).toNat (right - loadedStart).toNat

theorem releaseSwaHost_spec (s : UnifiedCache) (l : List Nat) :
    (s.releaseSwaHost (some l)).view = s.view ∧ (s.releaseSwaHost (some l)).counter = s.counter ∧
      (s.releaseSwaHost (some l)).nodes = s.nodes ∧
      (s.releaseSwaHost (some l)).lruLists = s.lruLists ∧
      ∃ rel, (s.releaseSwaHost (some l)).hostMemRelease = s.hostMemRelease ++ rel ∧
      rel.flatten = l := by
  unfold releaseSwaHost
  dsimp only
  by_cases hl : 0 < l.length
  · rw [if_pos hl]
    exact ⟨rfl, rfl, rfl, rfl, [l], rfl, flatten_singleton⟩
  · rw [if_neg hl]
    refine ⟨rfl, rfl, rfl, rfl, [], (append_nil _).symm, ?_⟩
    rw [eq_nil_of_length_eq_zero (by omega : l.length = 0)]
    rfl

theorem exists_enterHostLru (cd : ComponentData) (node : Nat) (hostLru : List Nat) :
    ∃ lru, enterHostLru cd node hostLru = some lru := by
  unfold enterHostLru
  split
  · next h =>
    rw [insertMru, if_neg h.2]
    exact ⟨_, rfl⟩
  · exact ⟨_, rfl⟩

theorem attachSwaHostValue_spec (s : UnifiedCache) {node : Nat} {n : UnifiedTreeNode}
    (hn : s.nodes node = some n) (hostIndices : List Nat) :
    ∃ s', s.attachSwaHostValue node hostIndices = some s' ∧
      s'.view = update s.view node (some ⟨n.parent, n.key, some hostIndices⟩) ∧
      s'.hostMemRelease = s.hostMemRelease ∧ s'.counter = s.counter ∧ s'.lruLists = s.lruLists ∧
      s'.nodes = update s.nodes node (some (setSwaHost hostIndices n)) := by
  obtain ⟨lru, hlru⟩ := exists_enterHostLru (n.componentData .swa) node (s.hostLruLists .swa)
  have hnodes : (s.modifyNode node (setSwaHost hostIndices)).nodes =
      update s.nodes node (some (setSwaHost hostIndices n)) := by
    show update s.nodes node ((s.nodes node).map _) = _
    rw [hn]
    rfl
  have hview : (s.modifyNode node (setSwaHost hostIndices)).view =
      update s.view node (some ⟨n.parent, n.key, some hostIndices⟩) := by
    funext i
    unfold view
    rw [hnodes]
    by_cases hi : i = node
    · subst hi
      rw [update_self, update_self]
      rfl
    · rw [update_of_ne hi, update_of_ne hi]
  unfold attachSwaHostValue
  rw [hn, bind_eq_bind, bind_some]
  dsimp only
  rw [show (s.modifyNode node (setSwaHost hostIndices)).hostLruLists = s.hostLruLists from rfl,
    hlru, bind_eq_bind, bind_some]
  have hparent : ∀ (t : UnifiedCache) (p : Option Nat),
      (p.elim t t.updateEvictableLeafSets).view = t.view ∧
      (p.elim t t.updateEvictableLeafSets).hostMemRelease = t.hostMemRelease ∧
      (p.elim t t.updateEvictableLeafSets).counter = t.counter ∧
      (p.elim t t.updateEvictableLeafSets).lruLists = t.lruLists ∧
      (p.elim t t.updateEvictableLeafSets).nodes = t.nodes := by
    intro t p
    cases p with
    | none => exact ⟨rfl, rfl, rfl, rfl, rfl⟩
    | some p => simp [elim_some]
  obtain ⟨hv, hr, hc, hl, hns⟩ := hparent ({ s.modifyNode node (setSwaHost hostIndices) with
    hostLruLists := update s.hostLruLists .swa lru }.updateEvictableLeafSets node) n.parent
  refine ⟨_, rfl, hv.trans ?_, hr.trans ?_, hc.trans ?_, hl.trans ?_, hns.trans ?_⟩
  · rw [view_updateEvictableLeafSets]
    exact hview
  · exact hostMemRelease_updateEvictableLeafSets _ node
  · exact counter_updateEvictableLeafSets _ node
  · exact lruLists_updateEvictableLeafSets _ node
  · rw [nodes_updateEvictableLeafSets]
    exact hnodes

/-- What a walk asks of the cache: nodes with device values are in their lists, and node ids are
below the counter. -/
structure WalkOk (cfg : UnifiedConfig) (s : UnifiedCache) : Prop where
  lru : LruOk cfg s
  ids : ∀ i v, s.view i = some v → i < s.counter

theorem WalkOk.congr (h : WalkOk cfg s) (hnodes : s₁.nodes = s.nodes)
    (hlru : s₁.lruLists = s.lruLists) (hcounter : s₁.counter = s.counter) : WalkOk cfg s₁ := by
  refine ⟨?_, ?_⟩
  · intro ct hct hfull i n hn hvalue
    rw [hlru]
    exact h.lru ct hct hfull i n (hnodes ▸ hn) hvalue
  · intro i v hv
    rw [hcounter]
    refine h.ids i v ?_
    rw [view, ← hnodes]
    exact hv

theorem WalkOk.attach (h : WalkOk cfg s) {node : Nat} {n : UnifiedTreeNode} {l : List Nat}
    (hn : s.nodes node = some n) (hnodes : s₁.nodes = update s.nodes node (some (setSwaHost l n)))
    (hlru : s₁.lruLists = s.lruLists)
    (hcounter : s₁.counter = s.counter) : WalkOk cfg s₁ := by
  refine ⟨?_, ?_⟩
  · intro ct hct hfull i m hm hvalue
    rw [hlru]
    rw [hnodes] at hm
    by_cases hi : i = node
    · subst hi
      rw [update_self] at hm
      cases hm
      refine h.lru ct hct hfull i n hn ?_
      cases ct <;> exact hvalue
    · rw [update_of_ne hi] at hm
      exact h.lru ct hct hfull i m hm hvalue
  · intro i v hv
    rw [hcounter]
    by_cases hi : i = node
    · exact hi ▸ h.ids node _ (view_at hn)
    · rw [view, hnodes, update_of_ne hi] at hv
      exact h.ids i v hv

/-- What one node of the walk does: it takes its part of the buffer, or that part is released. -/
structure Filled (cfg : UnifiedConfig) (buffer : List Nat) (loadedStart : Int) (s s₁ : UnifiedCache)
    (left cur : Nat)
    (v : HostView) (rel : List (List Nat)) : Prop where
  released : s₁.hostMemRelease = s.hostMemRelease ++ rel
  others : ∀ i u, i ≠ cur → s.view i = some u → s₁.view i = some u
  fresh : ∀ i u, s.view i = none → s₁.view i = some u → u.hostValue = none
  parent : ∃ u p, s₁.view cur = some u ∧ u.parent = some p ∧
    (loadedStart ≤ left → v.parent = some p)
  ok : loadedStart ≤ left → WalkOk cfg s₁
  node : (v.hostValue.isSome ∨ v.key.len = 0) ∧ s₁.view cur = some v ∧
      rel.flatten = window buffer loadedStart left (left + v.key.len) ∨
    v.hostValue = none ∧ rel = [] ∧ ∃ u, s₁.view cur = some u ∧
      u.hostValue = some (window buffer loadedStart left (left + v.key.len)) ∧
      u.key.letters = v.key.letters.drop (loadedStart - left).toNat

theorem fillNode_spec (h : WalkOk cfg s) (buffer : List Nat) {loadedStart : Int} {p : Nat}
    (left : Nat) {v : HostView} (hv : s.view cur = some v) (hp : v.parent = some p)
    (hpLive : (s.view p).isSome) (hne : cur ≠ p)
    (hpos : loadedStart < ((left + v.key.len : Nat) : Int)) :
    ∃ s₁ rel, s.fillNode cfg buffer loadedStart ((left + v.key.len : Nat) : Int) cur = some s₁ ∧
      Filled cfg buffer loadedStart s s₁ left cur v rel := by
  obtain ⟨n, hn, rfl⟩ := exists_node hv
  have hkey : n.hostView.key = n.key := rfl
  rw [hkey] at hpos ⊢
  have hstart : ((left + n.key.len : Nat) : Int) - n.key.len = left := by omega
  have hslice : pySlice buffer (max (left : Int) loadedStart - loadedStart).toNat
      (max (left : Int) loadedStart - loadedStart +
        (((left + n.key.len : Nat) : Int) - max (left : Int) loadedStart)).toNat =
      window buffer loadedStart left (left + n.key.len) := by
    unfold window
    congr 1 <;> omega
  unfold fillNode
  rw [hn, bind_eq_bind, bind_some]
  dsimp only
  rw [hstart, hslice]
  by_cases hfill : (n.componentData .swa).hostValue.isNone ∧
      0 < ((left + n.key.len : Nat) : Int) - max (left : Int) loadedStart
  · rw [if_pos hfill]
    have hnone : (n.componentData .swa).hostValue = none := isNone_iff_eq_none.mp hfill.1
    by_cases hcut : (left : Int) < max (left : Int) loadedStart
    · -- the window starts inside the node
      rw [if_pos hcut]
      obtain ⟨vp, hvp⟩ := isSome_iff_exists.mp hpLive
      obtain ⟨pn, hpn, -⟩ := exists_node hvp
      have hfresh : s.nodes s.counter = none := by
        cases hc : s.nodes s.counter with
        | none => rfl
        | some m => exact absurd (h.ids _ _ (view_at hc)) (Nat.lt_irrefl _)
      have hcur : cur < s.counter := h.ids cur _ hv
      obtain ⟨t, hsplit, hview, hrel, hcount⟩ := splitNode_spec h.lru n.key
        (max (left : Int) loadedStart - left).toNat hn hp hpn hfresh hne hnone
      obtain ⟨m, hm, hmv⟩ := exists_node (s := t) (i := cur) (by rw [hview, update_self])
      obtain ⟨s₁, hattach, hview₁, hrel₁, hcount₁, -, -⟩ := attachSwaHostValue_spec t hm
        (window buffer loadedStart left (left + n.key.len))
      have hmkey : m.key = n.key.dropUnits (max (left : Int) loadedStart - left).toNat :=
        congrArg HostView.key hmv
      have hmpar : m.parent = some s.counter := congrArg HostView.parent hmv
      -- the back half keeps its place in the path: the front half becomes its parent
      refine ⟨s₁, [], ?_, ?_⟩
      · rw [hsplit, bind_eq_bind, bind_some]
        exact hattach
      · have hcurView : s₁.view cur =
            some ⟨m.parent, m.key, some (window buffer loadedStart left (left + n.key.len))⟩ := by
          rw [hview₁, update_self]
        refine ⟨?_, ?_, ?_, ⟨_, _, hcurView, hmpar, fun hle => by omega⟩, fun hle => by omega,
          .inr ⟨hnone, rfl, _, hcurView, rfl, ?_⟩⟩
        · rw [hrel₁, hrel, append_nil]
        · intro i u hi hu
          have hi' : i ≠ s.counter := (h.ids i u hu).ne
          rw [hview₁, update_of_ne hi, hview, update_of_ne hi, update_of_ne hi', hu]
        · intro i u hnoneview hu
          have hi : i ≠ cur := by
            rintro rfl
            rw [hv] at hnoneview
            cases hnoneview
          rw [hview₁, update_of_ne hi, hview, update_of_ne hi] at hu
          by_cases hi' : i = s.counter
          · subst hi'
            rw [update_self] at hu
            cases hu
            rfl
          · rw [update_of_ne hi', hnoneview] at hu
            cases hu
        · show m.key.letters = _
          rw [hmkey, RadixKey.letters_dropUnits]
          congr 1
          omega
    · -- the window covers the node
      rw [if_neg hcut]
      obtain ⟨s₁, hattach, hview₁, hrel₁, hcount₁, hlru₁, hnodes₁⟩ := attachSwaHostValue_spec s hn
        (window buffer loadedStart left (left + n.key.len))
      have hcurView : s₁.view cur =
          some ⟨n.parent, n.key, some (window buffer loadedStart left (left + n.key.len))⟩ := by
        rw [hview₁, update_self]
      refine ⟨s₁, [], hattach, ?_, ?_, ?_, ⟨_, _, hcurView, hp, fun _ => hp⟩,
        fun _ => h.attach hn hnodes₁ hlru₁ hcount₁, .inr ⟨hnone, rfl, _, hcurView, rfl, ?_⟩⟩
      · rw [hrel₁, append_nil]
      · intro i u hi hu
        rw [hview₁, update_of_ne hi, hu]
      · intro i u hnoneview hu
        have hi : i ≠ cur := by
          rintro rfl
          rw [hv] at hnoneview
          cases hnoneview
        rw [hview₁, update_of_ne hi, hnoneview] at hu
        cases hu
      · have hzero : (loadedStart - left).toNat = 0 := by omega
        rw [hzero, drop_zero]
        rfl
  · -- the node has host values, or nothing of it was loaded: its slots are released
    rw [if_neg hfill]
    obtain ⟨hview₁, hcount₁, hnodes₁, hlru₁, rel, hrel, hflat⟩ := releaseSwaHost_spec s
      (window buffer loadedStart left (left + n.key.len))
    refine ⟨_, rel, rfl, hrel, ?_, ?_, ⟨_, _, hview₁ ▸ hv, hp, fun _ => hp⟩,
      fun _ => h.congr hnodes₁ hlru₁ hcount₁, .inl ⟨?_, hview₁ ▸ hv, hflat⟩⟩
    · intro i u _ hu
      rw [hview₁, hu]
    · intro i u hnone hu
      rw [hview₁, hnone] at hu
      cases hu
    · show (n.componentData .swa).hostValue.isSome ∨ _
      by_cases hsome : (n.componentData .swa).hostValue.isSome
      · exact .inl hsome
      · refine .inr ?_
        have hlen : ¬0 < ((left + n.key.len : Nat) : Int) - max (left : Int) loadedStart :=
          fun hlt => hfill ⟨by simpa using hsome, hlt⟩
        show n.key.len = 0
        omega

/-! ## Section 4: The walk -/

/-- What a node without an SWA host value holds afterwards. -/
def taken (s s' : UnifiedCache) (i : Nat) : List Nat :=
  if (s.hostOf i).isSome then [] else (s'.hostOf i).getD []

/-- The effect of the walk on a path whose first node ends at token `pathLen path`. -/
structure WalkResult (buffer : List Nat) (loadedStart : Int) (s s' : UnifiedCache) (path : List Nat)
    (rel : List (List Nat)) : Prop where
  released : s'.hostMemRelease = s.hostMemRelease ++ rel
  accounted : (rel.flatten ++ path.flatMap (taken s s')).Perm
    (buffer.take (s.pathLen path - loadedStart).toNat)
  placed : ∀ front c rest v, path = front ++ c :: rest → s.view c = some v → v.hostValue = none →
    ((s.pathLen (c :: rest) : Int) ≤ loadedStart ∨ v.key.len = 0) ∧ s'.view c = some v ∨
    ∃ u, s'.view c = some u ∧
    u.hostValue = some (window buffer loadedStart (s.pathLen rest) (s.pathLen (c :: rest))) ∧
    u.key.letters = v.key.letters.drop (loadedStart - s.pathLen rest).toNat
  kept : ∀ i u, s.view i = some u → i ∉ path ∨ u.hostValue.isSome → s'.view i = some u
  fresh : ∀ i u, s.view i = none → s'.view i = some u → u.hostValue = none

theorem pathLen_cons (s : UnifiedCache) (c : Nat) (rest : List Nat) :
    s.pathLen (c :: rest) = s.keyLen c + s.pathLen rest := by
  rw [pathLen, map_cons, sum_cons]
  rfl

theorem pathLen_append_le (s : UnifiedCache) (front rest : List Nat) :
    s.pathLen rest ≤ s.pathLen (front ++ rest) := by
  rw [pathLen, pathLen, map_append, sum_append]
  exact Nat.le_add_left _ _

theorem WalkResult.stop {buffer : List Nat} {loadedStart : Int}
    (hpos : (s.pathLen path : Int) ≤ loadedStart) :
    WalkResult buffer loadedStart s s path [] where
  released := (append_nil _).symm
  accounted := by
    have hzero : ((s.pathLen path : Int) - loadedStart).toNat = 0 := by omega
    have hnone : path.flatMap (taken s s) = [] := by
      apply flatMap_eq_nil_iff.mpr
      intro c _
      unfold taken
      cases s.hostOf c with
      | none => rfl
      | some _ => rfl
    rw [hzero, take_zero, hnone]
    exact List.Perm.nil
  placed := by
    rintro front c rest v rfl hv _
    have := s.pathLen_append_le front (c :: rest)
    exact .inl ⟨.inl (by omega), hv⟩
  kept := fun _ _ hu _ => hu
  fresh := by
    intro i u hnone hu
    rw [hnone] at hu
    cases hu

theorem take_window (buffer : List Nat) (loadedStart : Int) {left right : Nat} (h : left ≤ right) :
    buffer.take (left - loadedStart).toNat ++ window buffer loadedStart left right =
      buffer.take (right - loadedStart).toNat := by
  have hle : ((left : Int) - loadedStart).toNat ≤ ((right : Int) - loadedStart).toNat := by omega
  have hsplit := take_append_drop ((left : Int) - loadedStart).toNat
    (buffer.take ((right : Int) - loadedStart).toNat)
  rw [take_take, Nat.min_eq_left hle] at hsplit
  exact hsplit

theorem WalkResult.cons {buffer : List Nat} {loadedStart : Int} {rest : List Nat} {v : HostView}
    {rel rel' : List (List Nat)} (hv : s.view cur = some v) (hnot : cur ∉ rest)
    (hlive : ∀ i ∈ rest, ∃ u, s.view i = some u)
    (hfill : Filled cfg buffer loadedStart s s₁ (s.pathLen rest) cur v rel)
    (h : WalkResult buffer loadedStart s₁ s' rest rel') :
    WalkResult buffer loadedStart s s' (cur :: rest) (rel ++ rel') := by
  have hsame : ∀ i ∈ rest, s₁.view i = s.view i := by
    intro i hi
    obtain ⟨u, hu⟩ := hlive i hi
    rw [hu]
    refine hfill.others i u ?_ hu
    rintro rfl
    exact hnot hi
  have hsuffix : ∀ front r, rest = front ++ r → s₁.pathLen r = s.pathLen r := by
    rintro front r rfl
    exact pathLen_congr fun i hi => hsame i (mem_append_right _ hi)
  have hrest : s₁.pathLen rest = s.pathLen rest := hsuffix [] rest rfl
  have hright : s.pathLen (cur :: rest) = s.pathLen rest + v.key.len := by
    rw [pathLen_cons, keyLen_at hv, Nat.add_comm]
  have hcur : ∀ u, s₁.view cur = some u → s'.view cur = some u :=
    fun u hu => h.kept cur u hu (.inl hnot)
  refine ⟨?_, ?_, ?_, ?_, ?_⟩
  · rw [h.released, hfill.released, append_assoc]
  · -- the part of this node comes last in the buffer
    have hown : (rel.flatten ++ taken s s' cur) =
        window buffer loadedStart (s.pathLen rest) (s.pathLen rest + v.key.len) := by
      unfold taken
      rw [hostOf_at hv]
      rcases hfill.node with ⟨hsome | hzero, hview, hflat⟩ | ⟨hnone, rfl, u, hu, hhost, -⟩
      · rw [if_pos hsome, append_nil, hflat]
      · rw [hostOf_at (hcur v hview), hflat]
        cases hhost : v.hostValue with
        | none => exact append_nil _
        | some l => exact append_nil _
      · rw [hnone, hostOf_at (hcur u hu), hhost]
        rfl
    have hothers : rest.flatMap (taken s s') = rest.flatMap (taken s₁ s') := by
      apply flatMap_congr
      intro i hi
      unfold taken hostOf
      rw [hsame i hi]
    have hacc := h.accounted
    rw [hrest, ← hothers] at hacc
    rw [hright, flatMap_cons, flatten_append,
      ← take_window buffer loadedStart (Nat.le_add_right _ _), ← hown]
    have hswap : (rel.flatten ++ rel'.flatten ++ (taken s s' cur ++ rest.flatMap (taken s s'))).Perm
        ((rel'.flatten ++ rest.flatMap (taken s s')) ++ (rel.flatten ++ taken s s' cur)) := by
      rw [← Multiset.coe_eq_coe]
      simp only [← Multiset.coe_add]
      abel
    exact hswap.trans (hacc.append_right _)
  · intro front c r u hpath hu hnone
    cases front with
    | nil =>
      rw [nil_append, List.cons.injEq] at hpath
      obtain ⟨rfl, rfl⟩ := hpath
      rw [hv] at hu
      cases hu
      rcases hfill.node with ⟨hsome | hzero, hview, -⟩ | ⟨-, -, w, hw, hhost, hkey⟩
      · rw [hnone] at hsome
        cases hsome
      · exact .inl ⟨.inr hzero, hcur v hview⟩
      · rw [hright]
        exact .inr ⟨w, hcur w hw, hhost, hkey⟩
    | cons d front =>
      rw [cons_append, List.cons.injEq] at hpath
      obtain ⟨rfl, hpath⟩ := hpath
      have hmem : c ∈ rest := hpath ▸ mem_append_right _ mem_cons_self
      have hplaced := h.placed front c r u hpath ((hsame c hmem).trans hu) hnone
      rw [hsuffix front (c :: r) hpath, hsuffix (front ++ [c]) r (by rw [hpath, append_assoc]; rfl)]
        at hplaced
      exact hplaced
  · intro i u hu hor
    by_cases hi : i = cur
    · subst hi
      rw [hv] at hu
      cases hu
      have hsome : v.hostValue.isSome := hor.resolve_left fun hnotin => hnotin mem_cons_self
      rcases hfill.node with ⟨-, hview, -⟩ | ⟨hnone, -, -⟩
      · exact hcur v hview
      · rw [hnone] at hsome
        cases hsome
    · refine h.kept i u (hfill.others i u hi hu) (hor.imp_left fun hnotin hmem => ?_)
      exact hnotin (mem_cons_of_mem _ hmem)
  · intro i u hnone hu
    cases hs₁ : s₁.view i with
    | none => exact h.fresh i u hs₁ hu
    | some w =>
      -- a node that the cut made is not on the path
      have hi : i ∉ rest := by
        intro hi
        rw [hsame i hi, hnone] at hs₁
        cases hs₁
      rw [h.kept i w hs₁ (.inl hi)] at hu
      cases hu
      exact hfill.fresh i u hnone hs₁

/-- The walk from any node of the path, and the release of what lies in front of the path. -/
theorem commitLoop_spec (buffer : List Nat) (loadedStart : Int) {path : List Nat} :
    ∀ {fuel : Nat} {s : UnifiedCache} {cur : Nat}, path.length < fuel → WalkOk cfg s →
    PathBelow s anchor cur path → ∃ s' pos rel, commitLoop cfg anchor buffer loadedStart fuel s
    (s.pathLen path) cur = some (s', pos) ∧ WalkResult buffer loadedStart s
    (releaseOutside buffer loadedStart s' pos) path rel := by
  induction path with
  | nil =>
    intro fuel s cur hfuel hok hpath
    obtain ⟨fuel, rfl⟩ := Nat.exists_eq_succ_of_ne_zero (Nat.ne_of_gt hfuel)
    cases hpath with
    -- the walk is at the anchor: what is left of the buffer goes back
    | anchor _ =>
      obtain ⟨hview, -, -, -, rel, hrel, hflat⟩ := releaseSwaHost_spec s
        (buffer.take (((s.pathLen [] : Nat) : Int) - loadedStart).toNat)
      by_cases hpos : loadedStart < ((s.pathLen [] : Nat) : Int)
      · refine ⟨s, _, rel, by rw [commitLoop, if_neg fun h => h.1 rfl], ?_⟩
        rw [releaseOutside, if_pos hpos]
        refine ⟨hrel, ?_, ?_, ?_, ?_⟩
        · rw [hflat, flatMap_nil, append_nil]
        · intro front c rest v hnil
          simp at hnil
        · intro i u hu _
          rw [hview, hu]
        · intro i u hnone hu
          rw [hview, hnone] at hu
          cases hu
      · refine ⟨s, _, [], by rw [commitLoop, if_neg fun h => h.1 rfl], ?_⟩
        rw [releaseOutside, if_neg hpos]
        exact .stop (not_lt.mp hpos)
  | cons c rest ih =>
    intro fuel s cur hfuel hok hpath
    obtain ⟨fuel, rfl⟩ :=
      Nat.exists_eq_succ_of_ne_zero (Nat.ne_of_gt ((Nat.zero_le _).trans_lt hfuel))
    by_cases hpos : loadedStart < ((s.pathLen (c :: rest) : Nat) : Int)
    · have hpath' := hpath
      cases hpath with
      | @step _ p v _ hv hne hp hrest =>
        have hnot := hpath'.not_mem
        have hright : s.pathLen (c :: rest) = s.pathLen rest + v.key.len := by
          rw [pathLen_cons, keyLen_at hv, Nat.add_comm]
        have hparent : c ≠ p := by
          rintro rfl
          cases hrest with
          | anchor _ => exact hne rfl
          | step _ _ _ _ => exact hnot mem_cons_self
        obtain ⟨n, hn, rfl⟩ := exists_node hv
        obtain ⟨s₁, rel, hfillNode, hfill⟩ :=
          fillNode_spec hok buffer (s.pathLen rest) hv hp hrest.live hparent
          (hright ▸ hpos)
        obtain ⟨u, q, hu, hq, hsame⟩ := hfill.parent
        obtain ⟨m, hm, rfl⟩ := exists_node hu
        have hlive : ∀ i ∈ rest, ∃ w, s.view i = some w := fun i hi => (hrest.of_mem hi).1
        -- one turn fills `c` and goes on at its parent `q`
        have hnext : commitLoop cfg anchor buffer loadedStart (fuel + 1) s
          (s.pathLen (c :: rest)) c =
          commitLoop cfg anchor buffer loadedStart fuel s₁ (s.pathLen rest) q := by
          have hkey : n.hostView.key = n.key := rfl
          have hsub : ((s.pathLen rest + n.hostView.key.len : Nat) : Int) - n.key.len =
              s.pathLen rest := by
            rw [hkey]
            omega
          rw [commitLoop, if_pos ⟨hne, hpos⟩, hn, bind_eq_bind, bind_some, hright]
          show (s.fillNode cfg buffer loadedStart
            ((s.pathLen rest + n.hostView.key.len : Nat) : Int) c).bind _ = _
          rw [hfillNode, bind_some, hm, bind_some]
          show (Option.bind m.parent _) = _
          rw [show m.parent = some q from hq, bind_some, hsub]
        rw [hnext]
        have hpathLen : s₁.pathLen rest = s.pathLen rest := by
          apply pathLen_congr
          intro i hi
          obtain ⟨w, hw⟩ := hlive i hi
          rw [hw]
          exact hfill.others i w (fun heq => hnot (heq ▸ hi)) hw
        by_cases hle : loadedStart ≤ s.pathLen rest
        · have hrest₁ : PathBelow s₁ anchor q rest := by
            obtain rfl : p = q := Option.some.inj (hp.symm.trans (hsame hle))
            obtain ⟨a, ha⟩ := isSome_iff_exists.mp hrest.anchor_live
            refine hrest.congr ?_ ?_
            · rw [hfill.others anchor a hne.symm ha]
              rfl
            · intro i hi
              obtain ⟨w, hw⟩ := hlive i hi
              rw [hw]
              exact hfill.others i w (fun heq => hnot (heq ▸ hi)) hw
          obtain ⟨s', pos, rel', hloop, hresult⟩ :=
            ih (Nat.lt_of_succ_lt_succ hfuel) (hfill.ok hle) hrest₁
          rw [hpathLen] at hloop
          exact ⟨s', pos, _, hloop, .cons hv hnot hlive hfill hresult⟩
        · -- the window started inside this node
          obtain ⟨fuel, rfl⟩ := Nat.exists_eq_succ_of_ne_zero (n := fuel) (by
            rw [length_cons] at hfuel
            omega)
          refine ⟨s₁, _, rel ++ [], by rw [commitLoop, if_neg fun h => hle h.2.le], ?_⟩
          rw [releaseOutside, if_neg fun h => hle h.le]
          exact .cons hv hnot hlive hfill (.stop (by omega))
    · -- the window starts at or above the end of this node: nothing is left to do
      refine ⟨s, _, [], by rw [commitLoop, if_neg fun h => hpos h.2], ?_⟩
      rw [releaseOutside, if_neg hpos]
      exact .stop (not_lt.mp hpos)

/-! ## Section 5: The whole commit -/

/-- What a commit does with the buffer: `rel` is what it releases, and the buffer covers the tokens
of the path from `loadedStart` on. -/
structure Committed (buffer : List Nat) (loadedStart : Int) (s s' : UnifiedCache) (path : List Nat)
    (rel : List (List Nat)) : Prop where
  released : s'.hostMemRelease = s.hostMemRelease ++ rel
  /-- Every slot is released or held by a node that had no host value, once. -/
  accounted : (rel.flatten ++ path.flatMap (taken s s')).Perm buffer
  /-- Slot `k` is at the offset of its token in the node that covers the token, if that node had no
  host value. A node that the window starts in keeps its tokens from there on. -/
  placed : ∀ front c rest v, path = front ++ c :: rest → s.view c = some v → v.hostValue = none →
    ∀ k : Nat, k < buffer.length → (s.pathLen rest : Int) ≤ loadedStart + k →
    loadedStart + k < s.pathLen (c :: rest) → ∃ u host, s'.view c = some u ∧
    u.hostValue = some host ∧ u.key.letters = v.key.letters.drop (v.key.len - host.length) ∧
        host[(loadedStart + k - (s.pathLen (c :: rest) - host.length)).toNat]? = buffer[k]?
  kept : ∀ i u, s.view i = some u → i ∉ path ∨ u.hostValue.isSome → s'.view i = some u
  /-- The upper part of a node that is cut gets no slot. -/
  fresh : ∀ i u, s.view i = none → s'.view i = some u → u.hostValue = none
  fits : ∀ i u host, s'.view i = some u → u.hostValue = some host → host.length = u.key.len

theorem window_length {buffer : List Nat} {loadedStart : Int} (left : Nat) {right : Nat}
    (hright : (right : Int) ≤ loadedStart + buffer.length) :
    (window buffer loadedStart left right).length =
      ((right : Int) - loadedStart).toNat - ((left : Int) - loadedStart).toNat := by
  unfold window pySlice
  rw [length_drop, length_take, Nat.min_eq_left (by omega)]

theorem WalkResult.committed {buffer : List Nat} {loadedStart : Int} {rel : List (List Nat)}
    (h : WalkResult buffer loadedStart s s' path rel)
    (htotal : (s.pathLen path : Int) = loadedStart + buffer.length)
    (hfits : ∀ i v l, s.view i = some v → v.hostValue = some l → l.length = v.key.len) :
    Committed buffer loadedStart s s' path rel := by
  -- a node of the path ends inside the buffer
  have hright : ∀ {front c rest v}, path = front ++ c :: rest → s.view c = some v →
      s.pathLen (c :: rest) = s.pathLen rest + v.key.len ∧
        (s.pathLen (c :: rest) : Int) ≤ loadedStart + buffer.length := by
    rintro front c rest v rfl hv
    refine ⟨by rw [pathLen_cons, keyLen_at hv, Nat.add_comm], ?_⟩
    have := s.pathLen_append_le front (c :: rest)
    omega
  refine ⟨h.released, ?_, ?_, h.kept, h.fresh, ?_⟩
  · have hall : ((s.pathLen path : Int) - loadedStart).toNat = buffer.length := by omega
    have hacc := h.accounted
    rw [hall, take_length] at hacc
    exact hacc
  · intro front c rest v hpath hv hnone k _ hleft hlt
    obtain ⟨hlen, hle⟩ := hright hpath hv
    rcases h.placed front c rest v hpath hv hnone with ⟨hout, -⟩ | ⟨u, hu, hhost, hkey⟩
    · -- no token of such a node is in the window
      rcases hout with hout | hzero
      · omega
      · omega
    · have hwindow : (window buffer loadedStart (s.pathLen rest) (s.pathLen (c :: rest))).length =
          ((s.pathLen (c :: rest) : Int) - loadedStart).toNat -
          ((s.pathLen rest : Int) - loadedStart).toNat :=
        window_length _ hle
      refine ⟨u, _, hu, hhost, ?_, ?_⟩
      · rw [hkey, hwindow]
        congr 1
        omega
      · rw [hwindow]
        unfold window pySlice
        rw [getElem?_drop, getElem?_take_of_lt (by omega)]
        congr 1
        omega
  · intro i u host hu hhost
    cases hv : s.view i with
    | none =>
      rw [h.fresh i u hv hu] at hhost
      cases hhost
    | some v =>
      by_cases hkept : i ∉ path ∨ v.hostValue.isSome
      · rw [h.kept i v hv hkept] at hu
        cases hu
        exact hfits i _ host hv hhost
      · obtain ⟨hmem, hsome⟩ := not_or.mp hkept
        obtain ⟨front, rest, hpath⟩ := append_of_mem (not_not.mp hmem)
        have hnone : v.hostValue = none := by simpa using hsome
        obtain ⟨hlen, hle⟩ := hright hpath hv
        rcases h.placed front i rest v hpath hv hnone with ⟨-, hsame⟩ | ⟨w, hw, hwhost, hkey⟩
        · rw [hsame] at hu
          obtain rfl := Option.some.inj hu
          rw [hnone] at hhost
          cases hhost
        · rw [hw] at hu
          cases hu
          rw [hwhost] at hhost
          cases hhost
          rw [window_length _ hle, ← RadixKey.letters_length, hkey, length_drop,
            RadixKey.letters_length]
          omega

/-- A commit of a fully loaded window gives every slot of the buffer to the token it was loaded for,
or releases it.
-/
theorem commitPrefetch_exact (cfg : UnifiedConfig) {target windowPages loadedPages : Nat}
    {buffer : List Nat} {others : List (Option (List Nat))} {result : InsertResult}
    (hpage : 0 < cfg.pageSize)
    (hok : WalkOk cfg s) (hpath : PathBelow s anchor target path)
    (htarget : result.insertedHostNode = some target)
    (htotal : result.totalLen = s.pathLen path)
    (hbuffer : buffer.length = windowPages * cfg.pageSize)
    (hloaded : windowPages ≤ loadedPages)
    (hfits : ∀ i v l, s.view i = some v → v.hostValue = some l → l.length = v.key.len) :
    ∃ s' rel, s.commitPrefetch cfg anchor (some buffer :: others) (some result)
    (some loadedPages) = some s' ∧
    Committed buffer (result.totalLen - windowPages * cfg.pageSize) s s' path rel := by
  have hpages : buffer.length / cfg.pageSize = windowPages := by
    rw [hbuffer, Nat.mul_div_cancel _ hpage]
  have hend : (s.pathLen path : Int) = (result.totalLen - windowPages * cfg.pageSize : Int) +
      buffer.length := by
    rw [hbuffer, htotal]
    push_cast
    ring
  have hfuel : path.length < s.counter + 1 := by
    have hsub : path ⊆ List.range s.counter := by
      intro i hi
      obtain ⟨⟨v, hv⟩, -⟩ := hpath.of_mem hi
      exact mem_range.mpr (hok.ids i v hv)
    have := (subperm_of_subset hpath.nodup hsub).length_le
    rw [length_range] at this
    omega
  unfold commitPrefetch
  simp only [map_some, hpages, getD_some, bind_some, htarget]
  by_cases hzero : windowPages = 0
  · have hnil : buffer = [] := eq_nil_of_length_eq_zero (by rw [hbuffer, hzero, Nat.zero_mul])
    rw [if_pos (.inl hzero)]
    have hsame : s.releaseSwaHost (some buffer) = s := by
      rw [hnil]
      rfl
    rw [hsame]
    refine ⟨s, [], rfl, (WalkResult.stop ?_).committed hend hfits⟩
    rw [hend, hnil]
    exact le_of_eq (add_zero _)
  · rw [if_neg (by omega), bind_eq_bind, bind_some]
    obtain ⟨s', pos, rel, hloop, hresult⟩ := commitLoop_spec buffer
      (result.totalLen - windowPages * cfg.pageSize : Int) hfuel hok hpath
    rw [← htotal] at hloop
    rw [hloop]
    exact ⟨_, rel, rfl, hresult.committed hend hfits⟩

/-- A root, a node of four tokens without a host value, and a leaf of two tokens with one. -/
def sampleNode (parent : Option Nat) (tokens : List Int) (hostValue : Option (List Nat)) :
    UnifiedTreeNode where
  parent := parent
  children := ∅
  key := { tokenIds := tokens }
  componentData ct := if ct = .swa then { hostValue } else {}
  lastAccessTime := 0
  creationTime := 0

def sampleCache : UnifiedCache where
  nodes
    | 0 => some (sampleNode none [] none)
    | 1 => some (sampleNode (some 0) [1, 2, 3, 4] none)
    | 2 => some (sampleNode (some 1) [5, 6] (some [7, 8]))
    | _ => none
  counter := 3
  rootNode := 0

def sampleUnifiedConfig : UnifiedConfig where
  pageSize := 2
  treeComponents := [.full, .swa]
  components_nodup := by decide

theorem sampleCache_nodes {i : Nat} {n : UnifiedTreeNode} (h : sampleCache.nodes i = some n) :
    i < 3 ∧ (∀ ct, (n.componentData ct).value = none) ∧
      ∀ l, (n.componentData .swa).hostValue = some l → l.length = n.key.len := by
  rcases i with _ | _ | _ | i
  · cases h
    exact ⟨by decide, fun ct => by cases ct <;> rfl, fun l hl => by cases hl⟩
  · cases h
    exact ⟨by decide, fun ct => by cases ct <;> rfl, fun l hl => by cases hl⟩
  · cases h
    exact ⟨by decide, fun ct => by cases ct <;> rfl, fun l hl => by cases hl; rfl⟩
  · cases h

theorem walkOk_sample : WalkOk sampleUnifiedConfig sampleCache where
  lru := by
    intro ct _ _ i n hn hvalue
    rw [(sampleCache_nodes hn).2.1 ct] at hvalue
    cases hvalue
  ids := by
    intro i v hv
    obtain ⟨n, hn, -⟩ := exists_node hv
    exact (sampleCache_nodes hn).1

theorem pathBelow_sample : PathBelow sampleCache 0 2 [2, 1] :=
  .step rfl (by decide) rfl (.step rfl (by decide) rfl (.anchor rfl))

/-- The window of two pages releases the part of the occupied leaf and cuts the node above it. -/
theorem commitPrefetch_exact_sample :
    ∃ s' rel, sampleCache.commitPrefetch sampleUnifiedConfig 0 [some [10, 11, 12, 13]]
    (some ⟨0, 6, some 2⟩) (some 2) = some s' ∧
      Committed [10, 11, 12, 13] (((6 : Nat) : Int) - (2 : Nat) * (2 : Nat)) sampleCache s'
      [2, 1] rel :=
  commitPrefetch_exact sampleUnifiedConfig (by decide) walkOk_sample pathBelow_sample rfl rfl rfl
    (Nat.le_refl 2)
    (by
      intro i v l hv hl
      obtain ⟨n, hn, rfl⟩ := exists_node hv
      exact (sampleCache_nodes hn).2.2 l hl)

end UnifiedCache

end Sglang.MemCache.Unified
