import Sglang.MemCache.KvEvents

/-!
# When a Subscriber Mirrors the Cache

Runs of a cache whose subscriber drains the event queue at arbitrary moments. While every
operation of the run is `Announced`, the subscriber holds exactly the hashes of the stored pages.

Each operation that breaks the mirror is excluded by one clause of `Announced`; the release of a
session shows that the clauses are needed.
-/

namespace Sglang.MemCache

open List Option Function
open Lib

namespace RadixCache

variable {cfg : CacheConfig}

/-! ## Section 1: Hashes identify pages up to the namespace -/

/-- The published hashes of the pages of `K` collide only for equal byte strings. -/
def CollisionFree (cfg : CacheConfig) (K : Set (List Letter)) : Prop :=
  ∀ p ∈ K, ∀ q ∈ K, ∀ h, blockHash cfg p = some h → blockHash cfg q = some h →
    chainWords cfg.pageSize (p.length / cfg.pageSize) (unitsOf p) =
      chainWords cfg.pageSize (q.length / cfg.pageSize) (unitsOf q)

/-- What a set of page-aligned words of keys looks like. -/
structure PageWords (cfg : CacheConfig) (K : Set (List Letter)) : Prop where
  dvd : ∀ p ∈ K, cfg.pageSize ∣ p.length
  mode : ∀ p ∈ K, ∃ isBigram, OneMode isBigram (unitsOf p)

variable {K : Set (List Letter)}

theorem PageWords.units_eq (hK : PageWords cfg K) {p q : List Letter}
    (hp : p ∈ K) (hq : q ∈ K) {all : List String} (hall : chain cfg p = some all)
    (hwords : chainWords cfg.pageSize (p.length / cfg.pageSize) (unitsOf p) =
      chainWords cfg.pageSize (q.length / cfg.pageSize) (unitsOf q)) : unitsOf p = unitsOf q := by
  obtain ⟨W, hW⟩ := chainWords_of_hashPages hall
  obtain ⟨b, hb⟩ := hK.mode p hp
  obtain ⟨b', hb'⟩ := hK.mode q hq
  refine chainWords_inj cfg.pageSize_pos hb hb' ?_ ?_ hW (hwords.symm.trans hW)
  · rw [unitsOf_length, Nat.div_mul_cancel (hK.dvd p hp)]
  · rw [unitsOf_length, Nat.div_mul_cancel (hK.dvd q hq)]

theorem CollisionFree.units_eq (hfree : CollisionFree cfg K)
    (hK : PageWords cfg K) {p q : List Letter} (hp : p ∈ K) (hq : q ∈ K) {h : Int}
    (hhp : blockHash cfg p = some h) (hhq : blockHash cfg q = some h) : unitsOf p = unitsOf q := by
  obtain ⟨all, hall, _⟩ := bind_eq_some_iff.mp
    (map_eq_some_iff.mp hhp).choose_spec.1
  exact hK.units_eq hp hq hall (hfree p hp q hq h hhp hhq)

/-! ## Section 2: The mirror over single operations -/

/-- The events seen and queued so far give the stored hashes; stored pages are in `K`. -/
structure EventInv (cfg : CacheConfig) (K : Set (List Letter)) (seen : List KvEvent)
    (s : RadixCache) : Prop where
  hash : HashInv cfg s
  mirror : ∀ x, x ∈ replay ∅ (seen ++ s.kvEventQueue) ↔ x ∈ s.storedHashes cfg
  keys : (s.assoc cfg).keys ⊆ K

/-- No stored page outside of an unlocked node's has the tokens of one of its pages. -/
def Unshared (cfg : CacheConfig) (s : RadixCache) : Prop :=
  ∀ i n, s.view.core i = some n → n.lockRef = 0 → ∀ p ∈ s.view.pagesOf cfg.pageSize i,
    ∀ q ∈ (s.assoc cfg).keys, unitsOf p = unitsOf q → p = q

/-- No unlocked leaf is held by the session alone. -/
def Held (s : RadixCache) (sid : String) : Prop :=
  ∀ i n, s.nodes i = some n → sid ∈ n.sessionIds → n.lockRef = 0 → n.children.entries = [] →
    n.sessionIds.filter (· ≠ sid) ≠ []

theorem keys_remove (A : PageStore Letter Nat) (gone : Set (List Letter)) :
    (A.remove gone).keys = A.keys \ gone := by
  ext p
  constructor
  · rintro ⟨pg, h, hnot⟩
    exact ⟨⟨pg, h⟩, hnot⟩
  · rintro ⟨⟨pg, h⟩, hnot⟩
    exact ⟨pg, h, hnot⟩

theorem mem_keys_addLeaf {s t : RadixCache} (inv : TreeInv cfg.pageSize s.view) {node : Nat}
    {nd : NodeCore} {key : RadixKey} {value : List Nat}
    (hang : TreeInv.Hang cfg.pageSize s.view node nd key value)
    (hview : t.view = s.view.addLeaf cfg.pageSize node nd key value) (p : List Letter) :
    p ∈ (t.assoc cfg).keys ↔
      p ∈ (s.assoc cfg).keys ∨ p ∈ t.view.pagesOf cfg.pageSize s.counter := by
  have hnew : t.view.core s.counter = some (.leaf node key value) := by
    rw [hview]
    exact inv.addLeaf_new hang
  have hwnew : t.view.word s.counter = s.view.word node ++ key.letters := by
    rw [hview]
    exact inv.word_addLeaf_new hang
  have hwnode : t.view.word node = s.view.word node := by
    rw [hview, inv.word_addLeaf hang hang.node_at]
  constructor
  · intro hp
    obtain ⟨i, c, hi, hp⟩ := TreeInv.mem_keys_assoc_iff.mp hp
    by_cases hix : i = s.counter
    · -- a page of the new word is new, or one of the word above
      subst hix
      by_cases hlt : (s.view.word node).length < p.length
      · exact .inr ⟨_, node, hnew, rfl, hp, by rw [hwnode]; exact hlt⟩
      · refine .inl (TreeInv.mem_keys_assoc_iff.mpr ⟨node, nd, hang.node_at, hp.ne_nil, hp.dvd, ?_⟩)
        apply prefix_of_prefix_length_le hp.isPrefix ?_ (not_lt.mp hlt)
        rw [hwnew]
        exact prefix_append _ _
    · obtain ⟨c₀, hc₀⟩ : ∃ c₀, s.view.core i = some c₀ := by
        rw [hview] at hi
        rcases TreeInv.addLeaf_cases hi with ⟨rfl, _⟩ | ⟨rfl, _⟩ | ⟨_, _, hi⟩
        · exact absurd rfl hix
        · exact ⟨nd, hang.node_at⟩
        · exact ⟨c, hi⟩
      rw [hview, inv.word_addLeaf hang hc₀] at hp
      exact .inl (TreeInv.mem_keys_assoc_iff.mpr ⟨i, c₀, hc₀, hp⟩)
  · rintro (hp | ⟨c, q, hc, _, hp, _⟩)
    · obtain ⟨i, c, hi, hp⟩ := TreeInv.mem_keys_assoc_iff.mp hp
      obtain ⟨c', hc', _⟩ := inv.addLeaf_live hang hi
      refine TreeInv.mem_keys_assoc_iff.mpr ⟨i, c', ?_, ?_⟩
      · rw [hview]
        exact hc'
      · rw [hview, inv.word_addLeaf hang hi]
        exact hp
    · exact TreeInv.mem_keys_assoc_iff.mpr ⟨_, c, hc, hp⟩

section Operations

variable {K : Set (List Letter)} {seen : List KvEvent} {s t : RadixCache}

theorem EventInv.silent (he : EventInv cfg K seen s) (hs : Silent cfg s t) :
    EventInv cfg K seen t := by
  refine ⟨hs.hash, ?_, ?_⟩
  · intro x
    rw [hs.events, he.mirror]
    simp only [storedHashes, hs.assoc]
  · rw [hs.assoc]
    exact he.keys

theorem EventInv.inserted (hon : cfg.enableKvCacheEvents = true) (he : EventInv cfg K seen s)
    (inv : TreeInv cfg.pageSize s.view) {key : RadixKey} {value : List Nat}
    {res : Option InsertResult} (hins : Inserted cfg s key value t res)
    (hfit : ∀ u ∈ key.units, (unitWords u).isSome)
    (hK : ∀ p, IsPagePrefix cfg.pageSize p key.letters → p ∈ K) : EventInv cfg K seen t := by
  cases hins with
  | found hre _ _ => exact he.silent (hre.silent inv he.hash)
  | @added s₁ s₂ _ now priority chunked ok node d nd rest hre hnode hang hword _ hadd hview hev =>
    have he₁ := he.silent (hre.silent inv he.hash)
    have inv₁ := hre.inv inv
    have hrest : ∀ u ∈ rest.units, (unitWords u).isSome := by
      intro u hu
      refine hfit u ?_
      rw [← unitsOf_letters, ← hword, unitsOf, map_append]
      refine mem_append_right _ ?_
      rw [← unitsOf_letters] at hu
      exact hu
    obtain ⟨hhash, hs, parent, hnew, hqueue, _⟩ :=
      recordStoreEvent_new hon inv₁ he₁.hash hnode hang hadd hview hev hrest
    have hview' := (view_recordStoreEvent hev).trans hview
    have inv' : TreeInv cfg.pageSize t.view := by
      rw [hview']
      exact inv₁.addLeaf hang
    have hleaf : t.view.core s₁.counter = some (.leaf node rest (value.drop d)) := by
      rw [hview']
      exact inv₁.addLeaf_new hang
    have hwnew : t.view.word s₁.counter = key.letters := by
      rw [hview', show s₁.counter = s₁.view.counter from rfl, inv₁.word_addLeaf_new hang, hword]
    obtain ⟨all, hall, hown⟩ := hhash hleaf
    rw [hnew] at hown
    cases hown
    have hpages := mem_ownHashes_iff inv' hleaf rfl hall
    have hkeys := mem_keys_addLeaf inv₁ hang hview'
    refine ⟨hhash, ?_, ?_⟩
    · intro x
      rw [hqueue, ← append_assoc, replay_append, mem_replay_storeEvents, he₁.mirror, hpages]
      constructor
      · rintro (⟨p, hp, hx⟩ | ⟨p, hp, hx⟩)
        · exact ⟨p, (hkeys p).mpr (.inl hp), hx⟩
        · exact ⟨p, (hkeys p).mpr (.inr hp), hx⟩
      · rintro ⟨p, hp, hx⟩
        rcases (hkeys p).mp hp with hp | hp
        · exact .inl ⟨p, hp, hx⟩
        · exact .inr ⟨p, hp, hx⟩
    · intro p hp
      rcases (hkeys p).mp hp with hp | ⟨c, q, hc, _, hp, _⟩
      · exact he₁.keys hp
      · rw [hwnew] at hp
        exact hK p hp

/-- An evicted leaf withdraws its pages; none of them stays under another namespace. -/
theorem EventInv.evicted (hon : cfg.enableKvCacheEvents = true) (hfree : CollisionFree cfg K)
    (hK : PageWords cfg K) (he : EventInv cfg K seen s) (hun : Unshared cfg s)
    (inv : TreeInv cfg.pageSize s.view) {s₁ : RadixCache} {x p : Nat} {xn pn : TreeNode}
    {ok : Bool} (hx : s.nodes x = some xn) (hp : s.nodes p = some pn)
    (prune : TreeInv.Prune s.view x xn.toNodeCore p pn.toNodeCore)
    (hdel : s.deleteLeaf cfg x = some s₁)
    (hview : s₁.view = s.view.removeLeaf cfg.pageSize x xn.toNodeCore p pn.toNodeCore)
    (hev : s₁.recordRemoveEvent cfg xn = (t, ok)) :
    EventInv cfg K seen t ∧ Unshared cfg t := by
  have hh₁ : HashInv cfg s₁ := hashInv_deleteLeaf inv he.hash hx hp prune hdel hview
  have hq₁ := (hashAt_deleteLeaf hx hp prune.parent_eq hdel).2
  obtain ⟨all, hall, hown⟩ := he.hash prune.node_at
  have hown : xn.hashValue = some (ownHashes cfg (s.view.word x) xn.key.len all) := by
    simpa [hashAt, hx] using hown
  have hdvd : cfg.pageSize ∣ xn.key.len := by
    have := inv.trie.label_dvd (TreeInv.trie_at prune.node_at)
    simpa [TreeLinks.cell] using this
  have hlen : (ownHashes cfg (s.view.word x) xn.key.len all).length =
      xn.key.len / cfg.pageSize := by
    apply length_ownHashes hall hdvd
    rw [inv.word_child prune.node_at prune.parent_eq, length_append, RadixKey.letters_length]
    omega
  obtain ⟨hview₂, hhash₂, new, hqueue, hnew⟩ := recordRemoveEvent_of hon hown hlen hdvd hev
  have hassoc : t.assoc cfg = (s.assoc cfg).remove (s.view.pagesOf cfg.pageSize x) := by
    unfold RadixCache.assoc
    rw [hview₂, hview]
    exact inv.assoc_removeLeaf prune
  have hkeys : (t.assoc cfg).keys = (s.assoc cfg).keys \ s.view.pagesOf cfg.pageSize x := by
    rw [hassoc, keys_remove]
  have hpages := mem_ownHashes_iff inv prune.node_at prune.parent_eq hall
  have hsub : ∀ w ∈ s.view.pagesOf cfg.pageSize x, w ∈ K := by
    rintro w ⟨c, q, hc, _, hw, _⟩
    exact he.keys (TreeInv.mem_keys_assoc_iff.mpr ⟨x, c, hc, hw⟩)
  refine ⟨⟨hashInv_congr hh₁ hview₂ hhash₂, ?_, ?_⟩, ?_⟩
  · -- what the mirror drops is what the evicted pages hash to
    intro y
    rw [hqueue, hq₁, ← append_assoc, replay_append, hnew, he.mirror, hpages]
    constructor
    · rintro ⟨⟨w, hw, hy⟩, hnot⟩
      refine ⟨w, ?_, hy⟩
      rw [hkeys]
      exact ⟨hw, fun hmem => hnot ⟨w, hmem, hy⟩⟩
    · rintro ⟨w, hw, hy⟩
      rw [hkeys] at hw
      refine ⟨⟨w, hw.1, hy⟩, ?_⟩
      -- two pages of one hash are one page
      rintro ⟨w', hw', hy'⟩
      have hunits := hfree.units_eq hK (hsub w' hw') (he.keys hw.1) hy' hy
      have heq := hun x _ prune.node_at prune.unlocked w' hw' w hw.1 hunits
      exact hw.2 (heq ▸ hw')
  · rw [hkeys]
    exact fun w hw => he.keys hw.1
  · intro i n hi hlock w hw q hq
    rw [hview₂, hview] at hi
    obtain ⟨hix, hcase⟩ := TreeInv.removeLeaf_cases hi
    obtain ⟨n₀, hn₀, hpar, hlock₀⟩ : ∃ n₀, s.view.core i = some n₀ ∧ n₀.parent = n.parent ∧
        n₀.lockRef = n.lockRef := by
      rcases hcase with ⟨rfl, rfl⟩ | ⟨_, hi⟩
      · exact ⟨_, prune.parent_at, rfl, rfl⟩
      · exact ⟨_, hi, rfl, rfl⟩
    rw [hkeys] at hq
    refine hun i n₀ hn₀ (hlock₀.trans hlock) w ?_ q hq.1
    obtain ⟨c, u, hc, hu, hpre, hlt⟩ := hw
    rw [hview₂, hview] at hc hpre hlt
    rw [hi] at hc
    cases hc
    obtain ⟨u', un, hu', hun'⟩ := inv.exists_parent hn₀ (by
      refine inv.ne_root hn₀ (p := u) ?_
      rw [hpar]
      exact hu)
    rw [hpar, hu] at hu'
    cases hu'
    have hux : u ≠ x := by
      rintro rfl
      exact inv.trie.parent_ne_of_childless (TreeInv.trie_at prune.node_at) prune.no_child
        (TreeInv.trie_at hn₀) (hpar.trans hu) rfl
    rw [inv.word_removeLeaf prune hix hn₀] at hpre
    rw [inv.word_removeLeaf prune hux hun'] at hlt
    exact ⟨n₀, u, hn₀, hpar.trans hu, hpre, hlt⟩

theorem nodes_rememberClosedSession (s : RadixCache) (sid : String) :
    (s.rememberClosedSession sid).nodes = s.nodes := by
  unfold rememberClosedSession
  rfl

/-- A session that holds no unlocked leaf alone deletes nothing when it is released. -/
theorem quiet_release (cfg : CacheConfig) {sid : String} (iter : List Nat → List Nat)
    (hheld : Held s sid) :
    ∃ s' freed, s.releaseRadixSession cfg iter sid = some (s', freed) ∧ Quiet s s' := by
  have hleaves : ∀ (leaves : List Nat) {u : RadixCache} {freed : List (List Nat)}, Held u sid →
      ∃ s' freed', releaseLeaves cfg sid leaves u freed = some (s', freed') ∧ Quiet u s' := by
    intro leaves
    induction leaves with
    | nil =>
      intro u freed _
      exact ⟨u, freed, rfl, .refl u⟩
    | cons leaf leaves ih =>
      intro u freed hu
      unfold releaseLeaves
      cases hl : u.nodes leaf with
      | none => exact ih hu
      | some nd =>
        dsimp only
        split
        · exact ih hu
        · next hmem =>
          have hq := Quiet.modifyNode u leaf (cosmetic_untag sid)
          have hn₁ := nodes_modifyNode hl (untagNode sid)
          -- the first iteration stops: the node is locked, has children or another holder
          have hstop : leaf = (u.modifyNode leaf (untagNode sid)).rootNode ∨
              (untagNode sid nd).lockRef ≠ 0 ∨ (untagNode sid nd).children.entries ≠ [] ∨
              leaf ∉ (u.modifyNode leaf (untagNode sid)).evictableLeaves ∨
              (untagNode sid nd).sessionIds ≠ [] := by
            by_cases hlock : nd.lockRef = 0
            · by_cases hempty : nd.children.entries = []
              · exact .inr (.inr (.inr (.inr (hu leaf nd hl (not_not.mp hmem) hlock hempty))))
              · exact .inr (.inr (.inl hempty))
            · exact .inr (.inl hlock)
          have hheld' : Held (u.modifyNode leaf (untagNode sid)) sid := by
            intro i n hi hsid hlock hempty
            by_cases hil : i = leaf
            · subst hil
              rw [hn₁] at hi
              cases hi
              simp [untagNode] at hsid
            · simp only [modifyNode, update_of_ne hil] at hi
              exact hu i n hi hsid hlock hempty
          obtain ⟨s', freed', heq, hq'⟩ := ih hheld'
          refine ⟨s', freed', ?_, hq.trans hq'⟩
          simp only [releaseLoop, hn₁, bind_eq_bind, bind_some, if_pos hstop]
          exact heq
  have hq := quiet_rememberClosedSession s sid
  have hnodes := nodes_rememberClosedSession s sid
  unfold releaseRadixSession
  dsimp only
  generalize s.rememberClosedSession sid = t at hq hnodes ⊢
  have hheld' : Held { t with sessionLeaves := t.sessionLeaves.erase sid } sid := by
    intro i n hi
    simp only [hnodes] at hi
    exact hheld i n hi
  obtain ⟨s', freed, heq, hq'⟩ := hleaves (iter ((t.sessionLeaves.lookup sid).getD []))
     hheld'
  exact ⟨s', freed, heq, (hq.trans (quiet_sessions t _ t.closedSessionIds)).trans hq'⟩

theorem core_reset {now : Int} {i : Nat} {c : NodeCore}
    (hi : (s.reset cfg now).view.core i = some c) :
    i = s.counter ∧ c = (newRoot now).toNodeCore := by
  by_cases h : i = s.counter
  · subst h
    simp [RadixCache.reset, view] at hi
    exact ⟨rfl, hi.symm⟩
  · simp [RadixCache.reset, view, update_of_ne h] at hi

theorem assoc_reset (now : Int) : (s.reset cfg now).assoc cfg = ∅ :=
  assoc_root_only (treeInv_reset cfg now s) fun hi => (core_reset hi).1

theorem hashInv_reset (now : Int) : HashInv cfg (s.reset cfg now) := by
  intro i c hi
  obtain ⟨rfl, rfl⟩ := core_reset hi
  have hword : (s.reset cfg now).view.word s.counter = [] :=
    (treeInv_reset cfg now s).trie.word_root
  refine ⟨[], by rw [hword]; simp [chain, hashPages], ?_⟩
  simp [hashAt, RadixCache.reset, newRoot, ownHashes]

theorem EventInv.reset (hon : cfg.enableKvCacheEvents = true) (now : Int) :
    EventInv cfg K seen (s.reset cfg now) := by
  refine ⟨hashInv_reset now, ?_, ?_⟩
  · intro x
    have hstored : x ∉ (s.reset cfg now).storedHashes cfg := by
      rintro ⟨p, ⟨pg, hp⟩, _⟩
      rw [assoc_reset] at hp
      exact hp
    have hqueue : (s.reset cfg now).kvEventQueue = s.kvEventQueue ++ [.allBlocksCleared] := by
      simp [RadixCache.reset, hon]
    rw [hqueue, ← append_assoc, replay_append]
    simp [replay, applyEvent, hstored]
  · rintro p ⟨pg, hp⟩
    rw [assoc_reset] at hp
    exact hp.elim

end Operations

/-! ## Section 3: Announced operations -/

/-- What an operation must meet, in the state before it, for its events to tell what it did:
an insertion hashes tokens that fit in 32 bits, an eviction finds no unlocked page whose tokens
are stored under another namespace, and a released session is not the only holder of an unlocked
leaf. -/
def CacheOp.Announced (cfg : CacheConfig) (r : CacheRun) : CacheOp → Prop
  | .insert _ key _ _ _ =>
    cfg.disable = true ∨ ∀ u ∈ (alignedKey cfg key).units, (unitWords u).isSome
  | .evict _ numTokens => cfg.disable = true ∨ numTokens = 0 ∨ Unshared cfg r.cache
  | .releaseRadixSession _ sid => Held r.cache sid
  | _ => True

def CacheOp.pages (cfg : CacheConfig) : CacheOp → Set (List Letter)
  | .insert _ key _ _ _ => {p | IsPagePrefix cfg.pageSize p (alignedKey cfg key).letters}
  | _ => ∅

theorem EventInv.step (hon : cfg.enableKvCacheEvents = true)
    (hfree : CollisionFree cfg K) (hK : PageWords cfg K) {seen : List KvEvent} {r r' : CacheRun}
    (h : RunInv cfg r) (he : EventInv cfg K seen r.cache) {op : CacheOp}
    (hvalid : op.Valid cfg r) (hann : op.Announced cfg r) (hpages : op.pages cfg ⊆ K)
    (hstep : r.step cfg op = some r') : EventInv cfg K seen r'.cache := by
  apply step_rule h he.hash hvalid hstep fun hs => he.silent hs
  have htree : TreeInv cfg.pageSize r.cache.view := h.tree
  cases op with
  | insert now key value priority chunked =>
    intro hdis t res hins
    exact he.inserted hon htree hins (hann.resolve_left (by simp [hdis])) fun p hp => hpages hp
  | evict order numTokens =>
    intro t res heq
    rcases hann with hdis | hzero | hun
    · simp only [RadixCache.evict, hdis, if_true, Option.some.injEq, Prod.mk.injEq] at heq
      rw [← heq.1]
      exact he
    · subst hzero
      simp only [RadixCache.evict, evictLoop, Nat.lt_irrefl, false_and, if_false, ite_self,
        Option.some.injEq, Prod.mk.injEq] at heq
      rw [← heq.1]
      exact he
    · obtain ⟨t', res', acc, heq', ⟨ht, _⟩, _, _⟩ := evict_rule cfg order
        numTokens (fun t _ => EventInv cfg K seen t ∧ Unshared cfg t)
        (fun hP inv hx hp prune hdel hview hev =>
          hP.1.evicted hon hfree hK hP.2 inv hx hp prune hdel hview hev) ⟨he, hun⟩ htree
      rw [heq] at heq'
      cases heq'
      exact ht
  | releaseRadixSession iter sid =>
    intro t freed heq
    obtain ⟨t', freed', heq', hq⟩ := quiet_release cfg iter hann
    rw [heq] at heq'
    cases heq'
    exact he.silent (hq.silent he.hash)
  | reset now => exact EventInv.reset hon now
  | _ => trivial

/-! ## Section 4: Runs with a subscriber -/

/-- An operation of the cache, or the subscriber draining the queue. -/
inductive EventOp where
  | op (o : CacheOp)
  | takeEvents

/-- A run of a cache with the events its subscriber has drained. -/
structure EventRun where
  run : CacheRun
  seen : List KvEvent

def EventRun.step (cfg : CacheConfig) (r : EventRun) : EventOp → Option EventRun
  | .op o => (r.run.step cfg o).map fun run => { r with run := run }
  | .takeEvents =>
    let (s, events) := r.run.cache.takeEvents cfg
    some { run := { r.run with cache := s }, seen := r.seen ++ events }

def EventRun.exec (cfg : CacheConfig) : EventRun → List EventOp → Option EventRun
  | r, [] => some r
  | r, op :: ops =>
    match r.step cfg op with
    | none => none
    | some r' => r'.exec cfg ops

/-- A property of the operations of a run, each in the state in which it is executed. -/
def EventRun.Always (cfg : CacheConfig) (P : CacheRun → CacheOp → Prop) :
    EventRun → List EventOp → Prop
  | _, [] => True
  | r, op :: ops =>
    (match op with
      | .op o => P r.run o
      | .takeEvents => True) ∧
      match r.step cfg op with
      | none => True
      | some r' => r'.Always cfg P ops

/-- The state after `__init__`, with nothing drained. -/
def EventRun.start (cfg : CacheConfig) (now : Int) : EventRun := ⟨CacheRun.start cfg now, []⟩

/-- The pages of the keys that a run inserts. -/
def insertedPages (cfg : CacheConfig) (ops : List EventOp) : Set (List Letter) :=
  {p | ∃ o, .op o ∈ ops ∧ p ∈ o.pages cfg}

theorem pageWords_insertedPages (ops : List EventOp) :
    PageWords cfg (insertedPages cfg ops) := by
  have hpage : ∀ p ∈ insertedPages cfg ops, ∃ key : RadixKey,
      IsPagePrefix cfg.pageSize p key.letters := by
    rintro p ⟨o, _, hp⟩
    cases o with
    | insert now key value priority chunked => exact ⟨alignedKey cfg key, hp⟩
    | _ => exact hp.elim
  refine ⟨?_, ?_⟩
  · intro p hp
    obtain ⟨_, h⟩ := hpage p hp
    exact h.dvd
  · intro p hp
    obtain ⟨key, h⟩ := hpage p hp
    refine ⟨key.isBigram, fun u hu => oneMode_units key u ?_⟩
    obtain ⟨l, hl, rfl⟩ := List.mem_map.mp hu
    rw [← unitsOf_letters]
    exact List.mem_map_of_mem (h.isPrefix.subset hl)

variable {ops : List EventOp}

theorem EventRun.always_of_forall {P : CacheRun → CacheOp → Prop}
    (h : ∀ o, .op o ∈ ops → ∀ r, P r o) (r : EventRun) : r.Always cfg P ops := by
  induction ops generalizing r with
  | nil => trivial
  | cons op ops ih =>
    have hrest := ih fun o ho => h o (mem_cons_of_mem _ ho)
    refine ⟨?_, ?_⟩
    · cases op with
      | op o => exact h o (mem_cons_self ..) r.run
      | takeEvents => trivial
    · cases r.step cfg op with
      | none => trivial
      | some r' => exact hrest r'

theorem EventRun.Always.append {P : CacheRun → CacheOp → Prop} {ops ops' : List EventOp}
    {r r' : EventRun} (h : r.Always cfg P ops) (hexec : r.exec cfg ops = some r')
    (h' : r'.Always cfg P ops') : r.Always cfg P (ops ++ ops') := by
  induction ops generalizing r with
  | nil =>
    simp only [EventRun.exec, Option.some.injEq] at hexec
    rw [hexec]
    exact h'
  | cons op ops ih =>
    refine ⟨h.1, ?_⟩
    have hrest := h.2
    cases hstep : r.step cfg op with
    | none => trivial
    | some r₁ =>
      simp only [EventRun.exec, hstep] at hexec hrest
      exact ih hrest hexec

theorem RunInv.eventStep {r : EventRun} (h : RunInv cfg r.run) {op : EventOp}
    (hvalid : r.Always cfg (fun r o => o.Valid cfg r) (op :: ops)) :
    ∃ r', r.step cfg op = some r' ∧ RunInv cfg r'.run ∧
      r'.Always cfg (fun r o => o.Valid cfg r) ops := by
  have hrest := hvalid.2
  cases op with
  | op o =>
    obtain ⟨run, heq, h'⟩ := h.step hvalid.1
    have hstep : r.step cfg (.op o) = some { r with run := run } := by simp [EventRun.step, heq]
    rw [hstep] at hrest
    exact ⟨_, hstep, h', hrest⟩
  | takeEvents =>
    have hstep : r.step cfg .takeEvents =
      some ⟨{ r.run with cache := (r.run.cache.takeEvents cfg).1 },
        r.seen ++ (r.run.cache.takeEvents cfg).2⟩ := rfl
    rw [hstep] at hrest
    refine ⟨_, hstep, ?_, hrest⟩
    unfold takeEvents
    split
    · exact ⟨h.tree, h.locks⟩
    · exact h

theorem RunInv.eventExec {r : EventRun} (h : RunInv cfg r.run)
    (hvalid : r.Always cfg (fun r o => o.Valid cfg r) ops) :
    ∃ r', r.exec cfg ops = some r' ∧ RunInv cfg r'.run := by
  induction ops generalizing r with
  | nil => exact ⟨r, rfl, h⟩
  | cons op ops ih =>
    obtain ⟨r₁, hstep, h₁, hvalid₁⟩ := h.eventStep hvalid
    obtain ⟨r', hexec, h'⟩ := ih h₁ hvalid₁
    exact ⟨r', by simp [EventRun.exec, hstep, hexec], h'⟩

theorem EventInv.eventStep (hon : cfg.enableKvCacheEvents = true)
    (hfree : CollisionFree cfg K) (hK : PageWords cfg K) {r r' : EventRun}
    (h : RunInv cfg r.run) (he : EventInv cfg K r.seen r.run.cache) {op : EventOp}
    (hvalid : r.Always cfg (fun r o => o.Valid cfg r) (op :: ops))
    (hann : r.Always cfg (fun r o => o.Announced cfg r) (op :: ops))
    (hpages : insertedPages cfg (op :: ops) ⊆ K) (hstep : r.step cfg op = some r') :
    EventInv cfg K r'.seen r'.run.cache := by
  cases op with
  | op o =>
    obtain ⟨run, heq, rfl⟩ := map_eq_some_iff.mp hstep
    exact EventInv.step hon hfree hK h he hvalid.1 hann.1
      (fun p hp => hpages ⟨o, mem_cons_self .., hp⟩) heq
  | takeEvents =>
    simp only [EventRun.step, takeEvents, hon, if_true, Option.some.injEq] at hstep
    subst hstep
    refine ⟨hashInv_congr he.hash rfl fun _ => rfl, ?_, he.keys⟩
    intro x
    rw [append_nil]
    exact he.mirror x

theorem EventInv.exec (hon : cfg.enableKvCacheEvents = true)
    (hfree : CollisionFree cfg K) (hK : PageWords cfg K) {r : EventRun}
    (h : RunInv cfg r.run) (he : EventInv cfg K r.seen r.run.cache)
    (hvalid : r.Always cfg (fun r o => o.Valid cfg r) ops)
    (hann : r.Always cfg (fun r o => o.Announced cfg r) ops)
    (hpages : insertedPages cfg ops ⊆ K) :
    ∃ r', r.exec cfg ops = some r' ∧ EventInv cfg K r'.seen r'.run.cache := by
  induction ops generalizing r with
  | nil => exact ⟨r, rfl, he⟩
  | cons op ops ih =>
    obtain ⟨r₁, hstep, h₁, hvalid₁⟩ := h.eventStep hvalid
    have he₁ := EventInv.eventStep hon hfree hK h he hvalid hann hpages hstep
    have hann₁ := hann.2
    rw [hstep] at hann₁
    obtain ⟨r', hexec, he'⟩ := ih h₁ he₁ hvalid₁ hann₁ fun p hp => by
      obtain ⟨o, ho, hp⟩ := hp
      exact hpages ⟨o, mem_cons_of_mem _ ho, hp⟩
    exact ⟨r', by simp [EventRun.exec, hstep, hexec], he'⟩

/-- In every run of valid and announced operations, with the subscriber draining the queue at
any moments, what the subscriber holds once it has drained the queue is the set of hashes of the
stored pages. -/
theorem event_mirror (cfg : CacheConfig) (hon : cfg.enableKvCacheEvents = true) (now : Int)
    (ops : List EventOp) (hfree : CollisionFree cfg (insertedPages cfg ops))
    (hvalid : (EventRun.start cfg now).Always cfg (fun r o => o.Valid cfg r) ops)
    (hann : (EventRun.start cfg now).Always cfg (fun r o => o.Announced cfg r) ops) :
    ∃ r, (EventRun.start cfg now).exec cfg ops = some r ∧
      ∀ x, x ∈ replay ∅ (r.seen ++ r.run.cache.kvEventQueue) ↔
        x ∈ r.run.cache.storedHashes cfg := by
  obtain ⟨r, hexec, he⟩ := EventInv.exec hon hfree (pageWords_insertedPages ops)
    (runInv_reset cfg now _) (EventInv.reset hon now) hvalid hann subset_rfl
  exact ⟨r, hexec, he.mirror⟩

theorem unshared_of_namespace {s : RadixCache} (ns : Option String)
    (h : ∀ p ∈ (s.assoc cfg).keys, ∀ l ∈ p, l.1 = ns) : Unshared cfg s := by
  rintro i n hi _ p ⟨c, _, hc, _, hp, _⟩ q hq hunits
  have hpk : p ∈ (s.assoc cfg).keys := TreeInv.mem_keys_assoc_iff.mpr ⟨i, c, hc, hp⟩
  exact eq_of_unitsOf_eq ns (h p hpk) (h q hq) hunits

/-! ## Section 5: A run that is mirrored and one that is not -/

def digest12 : String := "34fb5c825de7ca4aea6e712f19d439c1da0c92c37b423936c5f618545ca4fa1f"

/-- SHA-256 of the previous digest and the words 3 and 4. -/
def digest34 : String := "c57b445f90651b9a650e516ab2238c965b21af35608a31c303e6d9e407f2915c"

/-- Events and sessions on, with the values of SHA-256 that the runs below need. -/
def eventConfig : CacheConfig where
  pageSize := 2
  pageSize_pos := Nat.two_pos
  enableKvCacheEvents := true
  enableSessionRadixCache := true
  sha256 := fun prior words =>
    if prior = none ∧ words = [1, 2] then digest12
    else if prior = some digest12 ∧ words = [3, 4] then digest34
    else ""

theorem eq_take_of_isPagePrefix {p w : List Letter} (hp : IsPagePrefix 2 p w)
    (hw : w.length ≤ 4) : p = w.take 2 ∨ p = w.take 4 := by
  have htake := prefix_iff_eq_take.mp hp.isPrefix
  have hle := hp.isPrefix.length_le
  have hpos := length_pos_of_ne_nil hp.ne_nil
  obtain ⟨m, hm⟩ := hp.dvd
  have hcase : p.length = 2 ∨ p.length = 4 := by omega
  rcases hcase with h | h
  · exact .inl (by rw [← h]; exact htake)
  · exact .inr (by rw [← h]; exact htake)

def mirroredOps : List EventOp :=
  [.op (.insert 1 { tokenIds := [1, 2, 3, 4] } [2, 3, 4, 5] 0 false),
    .op (.matchPrefix 2 { tokenIds := [1, 2] }), .takeEvents]

/-- An eviction that takes only the lower half. -/
def evictOps : List EventOp := [.op (.evict (EvictionStrategy.order .lru) 1)]

private theorem insertedPages_mirrored {p : List Letter}
    (hp : p ∈ insertedPages eventConfig (mirroredOps ++ evictOps)) :
    IsPagePrefix 2 p (alignedKey eventConfig { tokenIds := [1, 2, 3, 4] }).letters := by
  obtain ⟨o, ho, hp⟩ := hp
  simp only [mirroredOps, evictOps, cons_append, nil_append, mem_cons,
    EventOp.op.injEq, reduceCtorEq, not_mem_nil, or_false, false_or] at ho
  rcases ho with rfl | rfl | rfl
  · exact hp
  · exact hp.elim
  · exact hp.elim

private theorem collisionFree_mirrored :
    CollisionFree eventConfig (insertedPages eventConfig (mirroredOps ++ evictOps)) := by
  have hne : blockHash eventConfig
        ((alignedKey eventConfig { tokenIds := [1, 2, 3, 4] }).letters.take 2) ≠
      blockHash eventConfig
        ((alignedKey eventConfig { tokenIds := [1, 2, 3, 4] }).letters.take 4) := by
    decide +kernel
  intro p hp q hq h hhp hhq
  rcases eq_take_of_isPagePrefix (insertedPages_mirrored hp) (by decide) with rfl | rfl <;>
    rcases eq_take_of_isPagePrefix (insertedPages_mirrored hq) (by decide) with rfl | rfl
  · rfl
  · exact absurd (hhp.trans hhq.symm) hne
  · exact absurd (hhq.trans hhp.symm) hne
  · rfl

theorem event_mirror_eviction :
    ∃ r, (EventRun.start eventConfig 0).exec eventConfig (mirroredOps ++ evictOps) = some r ∧
      ∀ x, x ∈ replay ∅ (r.seen ++ r.run.cache.kvEventQueue) ↔
        x ∈ r.run.cache.storedHashes eventConfig := by
  have hfree := collisionFree_mirrored
  have hvalid : ∀ r : EventRun, r.Always eventConfig (fun r o => o.Valid eventConfig r)
      (mirroredOps ++ evictOps) := by
    refine EventRun.always_of_forall fun o ho r => ?_
    simp only [mirroredOps, evictOps, cons_append, nil_append, mem_cons,
      EventOp.op.injEq, reduceCtorEq, not_mem_nil, or_false, false_or] at ho
    rcases ho with rfl | rfl | rfl
    · change (alignedKey eventConfig _).len ≤ _
      decide
    · trivial
    · trivial
  have hann : (EventRun.start eventConfig 0).Always eventConfig
      (fun r o => o.Announced eventConfig r) mirroredOps := by
    refine EventRun.always_of_forall (fun o ho r => ?_) _
    simp only [mirroredOps, mem_cons, EventOp.op.injEq, reduceCtorEq, not_mem_nil,
      or_false] at ho
    rcases ho with rfl | rfl
    · refine .inr ?_
      decide
    · trivial
  have hvalid' : (EventRun.start eventConfig 0).Always eventConfig
      (fun r o => o.Valid eventConfig r) mirroredOps := by
    refine EventRun.always_of_forall (fun o ho r => ?_) _
    simp only [mirroredOps, mem_cons, EventOp.op.injEq, reduceCtorEq, not_mem_nil,
      or_false] at ho
    rcases ho with rfl | rfl
    · change (alignedKey eventConfig _).len ≤ _
      decide
    · trivial
  -- all pages before the eviction are in the default namespace
  obtain ⟨r, hexec, he⟩ := EventInv.exec rfl hfree (pageWords_insertedPages _)
    (runInv_reset eventConfig 0 _) (EventInv.reset rfl 0) hvalid' hann (by
      rintro p ⟨o, ho, hp⟩
      exact ⟨o, mem_append_left _ ho, hp⟩)
  have hun : Unshared eventConfig r.run.cache := by
    refine unshared_of_namespace none fun p hp l hl => ?_
    exact letters_extraKey ((insertedPages_mirrored (he.keys hp)).isPrefix.subset hl)
  have hlast : r.Always eventConfig (fun r o => o.Announced eventConfig r) evictOps :=
    ⟨.inr (.inr hun), by cases r.step eventConfig _ <;> trivial⟩
  exact event_mirror eventConfig rfl 0 (mirroredOps ++ evictOps) hfree (hvalid _)
    (hann.append hexec hlast)

/-- A session holds the only page of the tree and is released. -/
def releaseOps : List EventOp :=
  [.op (.insert 1 { tokenIds := [1, 2] } [2, 3] 0 false),
    .op (.tagSessionLeaf 2 (some "a") { tokenIds := [1, 2] } (some 1)),
    .op (.releaseRadixSession id "a"), .takeEvents]

/-- The released page leaves the tree without a `BlockRemoved` event. -/
theorem release_radix_session_unannounced :
    CollisionFree eventConfig (insertedPages eventConfig releaseOps) ∧
      (EventRun.start eventConfig 0).Always eventConfig (fun r o => o.Valid eventConfig r)
        releaseOps ∧
      ∃ r, (EventRun.start eventConfig 0).exec eventConfig releaseOps = some r ∧
        hashStrToInt64 digest12 ∈ replay ∅ (r.seen ++ r.run.cache.kvEventQueue) ∧
        hashStrToInt64 digest12 ∉ r.run.cache.storedHashes eventConfig := by
  have hvalid : (EventRun.start eventConfig 0).Always eventConfig
      (fun r o => o.Valid eventConfig r) releaseOps := by
    refine EventRun.always_of_forall (fun o ho r => ?_) _
    simp only [releaseOps, mem_cons, EventOp.op.injEq, reduceCtorEq, not_mem_nil,
      or_false] at ho
    rcases ho with rfl | rfl | rfl
    · change (alignedKey eventConfig _).len ≤ _
      decide
    · trivial
    · trivial
  refine ⟨?_, hvalid, ?_⟩
  · intro p hp q hq h _ _
    have hpage : ∀ p ∈ insertedPages eventConfig releaseOps,
        p = (alignedKey eventConfig { tokenIds := [1, 2] }).letters := by
      rintro p ⟨o, ho, hp⟩
      simp only [releaseOps, mem_cons, EventOp.op.injEq, reduceCtorEq, not_mem_nil,
        or_false] at ho
      rcases ho with rfl | rfl | rfl
      · rcases eq_take_of_isPagePrefix hp (by decide) with rfl | rfl <;> rfl
      · exact hp.elim
      · exact hp.elim
    rw [hpage p hp, hpage q hq]
  · obtain ⟨r, hexec, hrun⟩ :=
      RunInv.eventExec (runInv_reset eventConfig 0 _) hvalid
    have hmem : ((EventRun.start eventConfig 0).exec eventConfig releaseOps).map (fun r =>
        decide (hashStrToInt64 digest12 ∈ replay ∅ (r.seen ++ r.run.cache.kvEventQueue))) =
          some true := by decide +kernel
    have hgone : ((EventRun.start eventConfig 0).exec eventConfig releaseOps).map (fun r =>
        (r.run.cache.counter, r.run.cache.rootNode, (r.run.cache.nodes 1).isSome)) =
          some (2, 0, false) := by decide +kernel
    have hexec : (EventRun.start eventConfig 0).exec eventConfig releaseOps = some r := hexec
    rw [hexec] at hmem hgone
    simp only [map_some, Option.some.injEq, decide_eq_true_eq, Prod.mk.injEq] at hmem hgone
    refine ⟨r, hexec, hmem, ?_⟩
    rintro ⟨p, ⟨pg, hp⟩, _⟩
    rw [assoc_root_only hrun.tree] at hp
    · exact hp
    · intro i c hi
      have hlt := hrun.tree.fresh hi
      change i < r.run.cache.counter at hlt
      change i = r.run.cache.rootNode
      rw [hgone.1] at hlt
      rw [hgone.2.1]
      by_contra hne
      have hone : i = 1 := by omega
      subst hone
      obtain ⟨n, hn, _⟩ := exists_node hi
      simp [hn] at hgone

end RadixCache

end Sglang.MemCache
