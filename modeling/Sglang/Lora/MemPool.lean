import Mathlib.Data.Finset.Card
import Mathlib.Data.Finset.Image
import Mathlib.Data.List.Basic
import Sglang.Lib.Runs

/-!
# The LoRA Memory Pool

Model of `LoRAMemoryPool` (`lora/mem_pool.py`) and of its eviction policies
(`lora/eviction_policy.py`): a fixed number of slots, each of which holds the weights of one
adapter.

- `loadLoraWeightToBuffer`: the buffers of a slot that a load writes, one after the other; it may
  raise before all of them are written,
- `prepareLoraBatch`: every adapter of a batch gets a slot, that of a victim if there is no empty
  one,
- `Inv`: the two maps between uids and slots are inverse, the policy tracks what is resident, and a
  slot holds what was loaded,
- `CallGood`: what a call promises; `good_along`: every call of a run keeps it, if each load finds
  the buffers that it leaves out empty.

A weight is taken as it is copied, sliced and scaled, and a buffer of zeros is `none`. Where weights
do not fit their buffer, or an adapter is not there, the load raises.
-/

namespace Sglang.Lora.MemPool

open List Option Function
open Lib

/-! ## Section 1: Slots and adapters -/

/-- A uid; `none` is the base model. -/
abbrev Uid := Option String

/-- The buffers of a slot. -/
inductive BufferKey where
  | loraA (name : String) (layer : Nat)
  | loraB (name : String) (layer : Nat)
  | embeddingA (name : String)
  | embeddingB (name : String)
  | lmHeadA (name : String)
  | lmHeadB (name : String)
  | newEmbeddings
deriving DecidableEq, Repr

/-- The buffers that are not kept by layer. -/
def BufferKey.isEmbedding : BufferKey → Bool
  | .loraA _ _ | .loraB _ _ => false
  | _ => true

/-- The weights of an adapter by the buffer that they go to. -/
structure Adapter (W : Type) where
  weights : BufferKey → Option W
  /-- Whether `embedding_layers` has entries. -/
  hasEmbeddingLayers : Bool
  noEmbedding : hasEmbeddingLayers = false → ∀ key : BufferKey, key.isEmbedding = true →
    weights key = none

/-- The fields of the pool that do not change. -/
structure PoolConfig where
  maxLorasPerBatch : Nat
  numLayer : Nat
  /-- The keys of `A_buffer` and `B_buffer`. -/
  aBuffer : List String
  bBuffer : List String
  /-- `active_target_modules` of a layer. -/
  active : Nat → String → Bool
  expertsSharedOuterLoras : Bool
  /-- Those of `embedding_A_buffer`, `embedding_B_buffer`, `lm_head_A_buffer`, `lm_head_B_buffer`
  and `new_embeddings_buffer` that there are, with a module that reads them. -/
  embeddingBuffers : List BufferKey
  embedding : ∀ key ∈ embeddingBuffers, key.isEmbedding = true
  isLru : Bool

abbrev Slot (W : Type) := BufferKey → Option W

section Load

variable {W : Type} (cfg : PoolConfig)

def isMoe (name : String) : Bool := name = "gate_up_proj_moe" || name = "down_proj_moe"

/-- One buffer of a layer. A buffer for the weights of each expert is only written where there are
weights. -/
def writeLayer (perExpert : Bool) (key : BufferKey) (weights : Option W) : List
    (BufferKey × Option W) :=
  if perExpert && weights.isNone then [] else [(key, weights)]

/-- The buffers that a load writes, with what it writes. -/
def writes (adapter : Adapter W) : List (BufferKey × Option W) :=
  ((List.range cfg.numLayer).flatMap fun layer =>
    ((cfg.aBuffer.filter (cfg.active layer)).flatMap fun name =>
      writeLayer (isMoe name && !(cfg.expertsSharedOuterLoras && name = "gate_up_proj_moe"))
        (.loraA name layer) (adapter.weights (.loraA name layer))) ++
    ((cfg.bBuffer.filter (cfg.active layer)).flatMap fun name =>
      writeLayer (isMoe name && !(cfg.expertsSharedOuterLoras && name = "down_proj_moe"))
        (.loraB name layer) (adapter.weights (.loraB name layer)))) ++
  if adapter.hasEmbeddingLayers then
    -- entry by entry of `added_tokens_embeddings` and `embedding_layers`
    cfg.embeddingBuffers.flatMap fun key => writeLayer true key (adapter.weights key)
  else cfg.embeddingBuffers.map fun key => (key, none)

/-- The buffers that the layers of the model read. -/
def readKeys : List BufferKey :=
  ((List.range cfg.numLayer).flatMap fun layer =>
    (cfg.aBuffer.filter (cfg.active layer)).map (BufferKey.loraA · layer) ++
    (cfg.bBuffer.filter (cfg.active layer)).map (BufferKey.loraB · layer)) ++ cfg.embeddingBuffers

/-- `A` is zero for the base model. -/
def baseKeys : List BufferKey :=
  ((List.range cfg.numLayer).flatMap fun layer => cfg.aBuffer.map (BufferKey.loraA · layer)) ++
    cfg.embeddingBuffers.filter fun
      | .embeddingA _ | .lmHeadA _ => true
      | _ => false

/-- What is loaded for a uid; an adapter that is not there fails the assertion. -/
def writesFor (adapters : String → Option (Adapter W)) : Uid → Option (List (BufferKey × Option W))
  | none => some ((baseKeys cfg).map fun key => (key, none))
  | some uid => (adapters uid).map (writes cfg)

def applyWrites (slot : Slot W) (ws : List (BufferKey × Option W)) : Slot W :=
  ws.foldl (fun slot w => update slot w.1 w.2) slot

end Load

/-! ## Section 2: The pool -/

/-- `access_order` or `insertion_order`, `uid_to_buffer_id`, `buffer_id_to_uid` with `none` for
`EMPTY_SLOT`, and the buffers; the adapters of the last successful loads are not a field of the
source. -/
structure Pool (W : Type) where
  order : List String
  uidToBufferId : Uid → Option Nat
  bufferIdToUid : Nat → Option Uid
  buffers : Nat → Slot W
  lastLoaded : String → Option (Adapter W)

def Pool.init (W : Type) : Pool W where
  order := []
  uidToBufferId := fun _ => none
  bufferIdToUid := fun _ => none
  buffers := fun _ _ => none
  lastLoaded := fun _ => none

/-- A call of `prepare_lora_batch`; `fails` is the number of writes after which a load raises. -/
structure Call (W : Type) where
  curUids : List Uid
  adapters : String → Option (Adapter W)
  pinned : String → Bool
  fails : Uid → Option Nat

/-- What a call raises. -/
inductive Raised where
  | noSlots
  | selectVictim
  | keyError
  | load
deriving DecidableEq, Repr

namespace Pool

variable {W : Type}

def markUsed (cfg : PoolConfig) (p : Pool W) : Uid → Pool W
  | none => p
  | some uid =>
    if cfg.isLru then { p with order := p.order.erase uid ++ [uid] }
    else if uid ∈ p.order then p
    else { p with order := p.order ++ [uid] }

/-- `select_victim`; `none` is its last assertion. -/
def selectVictim (p : Pool W) (candidates : List Uid) : Option Uid :=
  match p.order.find? fun uid => some uid ∈ candidates with
  | some uid => some (some uid)
  | none => if none ∈ candidates then some none else none

/-- `lora_refs.get(uid)` and its `pinned`. -/
def isPinned (call : Call W) : Uid → Bool
  | none => false
  | some uid => call.pinned uid

def candidates (cfg : PoolConfig) (call : Call W) (p : Pool W) : List Uid :=
  (List.range cfg.maxLorasPerBatch).filterMap fun b =>
    (p.bufferIdToUid b).filter fun uid => !(uid ∈ call.curUids) && !isPinned call uid

def evict (p : Pool W) (victim : Uid) (b : Nat) : Pool W :=
  { p with
    uidToBufferId := update p.uidToBufferId victim none
    bufferIdToUid := update p.bufferIdToUid b none
    order := victim.elim p.order p.order.erase }

def getAvailableBufferSlot (cfg : PoolConfig) (call : Call W) (p : Pool W) : Except Raised
    (Pool W × Nat) :=
  match (List.range cfg.maxLorasPerBatch).find? fun b => p.bufferIdToUid b = none with
  | some b => .ok (p, b)
  | none =>
    let all := p.candidates cfg call
    if all = [] then .error .noSlots
    else
      -- adapters rather than the base model
      let nonNone := all.filter (· ≠ none)
      match p.selectVictim (if nonNone = [] then all else nonNone) with
      | none => .error .selectVictim
      | some victim =>
        match p.uidToBufferId victim with
        | none => .error .keyError
        | some b => .ok (p.evict victim b, b)

/-- `load_lora_weight_to_buffer`, and whether it returns. -/
def loadLoraWeightToBuffer (cfg : PoolConfig) (call : Call W) (p : Pool W) (uid : Uid) (b : Nat) :
    Pool W × Bool :=
  match writesFor cfg call.adapters uid with
  | none => (p, false)
  | some ws =>
    match call.fails uid with
    | some n =>
      ({ p with buffers := update p.buffers b (applyWrites (p.buffers b) (ws.take n)) }, false)
    | none => ({ p with buffers := update p.buffers b (applyWrites (p.buffers b) ws) }, true)

def assign (call : Call W) (p : Pool W) (uid : Uid) (b : Nat) : Pool W :=
  { p with
    uidToBufferId := update p.uidToBufferId uid (some b)
    bufferIdToUid := update p.bufferIdToUid b (some uid)
    lastLoaded := uid.elim p.lastLoaded fun u => update p.lastLoaded u (call.adapters u) }

/-- The loop of `prepare_lora_batch`. -/
def prepare (cfg : PoolConfig) (call : Call W) : Pool W → List Uid → Pool W × Option Raised
  | p, [] => (p, none)
  | p, uid :: rest =>
    if (p.uidToBufferId uid).isSome then prepare cfg call p rest
    else
      match p.getAvailableBufferSlot cfg call with
      | .error raised => (p, some raised)
      | .ok (p, b) =>
        match p.loadLoraWeightToBuffer cfg call uid b with
        | (p, false) => (p, some .load)
        | (p, true) => prepare cfg call (p.assign call uid b) rest

def prepareLoraBatch (cfg : PoolConfig) (p : Pool W) (call : Call W) : Pool W × Option Raised :=
  prepare cfg call (call.curUids.foldl (markUsed cfg) p) call.curUids

end Pool

/-! ## Section 3: What a call promises -/

variable {W : Type}

/-- A slot with a uid holds what the last load of the uid that returned was to write. -/
def Holds (cfg : PoolConfig) (p : Pool W) (b : Nat) : Uid → Prop
  | none => ∀ key ∈ baseKeys cfg, p.buffers b key = none
  | some uid => ∃ adapter, p.lastLoaded uid = some adapter ∧
      ∀ key ∈ readKeys cfg, p.buffers b key = adapter.weights key

/-- The two maps are inverse of each other. -/
def Inverse (cfg : PoolConfig) (p : Pool W) : Prop :=
  ∀ uid b, p.uidToBufferId uid = some b ↔ b < cfg.maxLorasPerBatch ∧ p.bufferIdToUid b = some uid

def needed (cfg : PoolConfig) (call : Call W) (p : Pool W) : Finset Uid :=
  call.curUids.toFinset ∪ (((List.range cfg.maxLorasPerBatch).filterMap p.bufferIdToUid).filter
    (Pool.isPinned call)).toFinset

/-- What the batch needs and `p` holds has its slot and its weights in `q` still. -/
def Stays (call : Call W) (p q : Pool W) : Prop :=
  ∀ uid b, p.uidToBufferId uid = some b → uid ∈ call.curUids ∨ Pool.isPinned call uid = true →
    q.uidToBufferId uid = some b ∧ q.buffers b = p.buffers b

/-- What a call from `p` promises of the pool that it leaves, and of what it raises. A later load of
the call takes nothing of what an earlier one has placed. -/
structure CallGood (cfg : PoolConfig) (p : Pool W) (call : Call W)
    (result : Pool W × Option Raised) :
    Prop where
  inverse : Inverse cfg result.1
  holds : ∀ uid b, result.1.uidToBufferId uid = some b → Holds cfg result.1 b uid
  kept : Stays call p result.1
  keptOn : ∀ front back, call.curUids = front ++ back →
    let middle := Pool.prepare cfg call (call.curUids.foldl (Pool.markUsed cfg) p) front
    middle.2 = none → Stays call middle.1 result.1
  noAssertion : result.2 ≠ some .selectVictim ∧ result.2 ≠ some .keyError
  resident : result.2 = none → ∀ uid ∈ call.curUids, (result.1.uidToBufferId uid).isSome = true
  noSlots : result.2 = some .noSlots → cfg.maxLorasPerBatch < (needed cfg call p).card

/-- A load of an adapter into slot `b` leaves out only buffers of zeros. -/
def LoadFits (cfg : PoolConfig) (call : Call W) (p : Pool W) (b : Nat) : Uid → Prop
  | none => True
  | some uid => ∀ adapter ∈ call.adapters uid, ∀ key ∈ readKeys cfg,
      key ∉ (writes cfg adapter).map Prod.fst → p.buffers b key = none

def LoadsFit (cfg : PoolConfig) (call : Call W) : Pool W → List Uid → Prop
  | _, [] => True
  | p, uid :: rest =>
    if (p.uidToBufferId uid).isSome then LoadsFit cfg call p rest
    else
      match p.getAvailableBufferSlot cfg call with
      | .error _ => True
      | .ok (p, b) =>
        LoadFits cfg call p b uid ∧
          match p.loadLoraWeightToBuffer cfg call uid b with
          | (_, false) => True
          | (p, true) => LoadsFit cfg call (p.assign call uid b) rest

/-- A call whose loads all find the buffers that they leave out empty. -/
def CallFits (cfg : PoolConfig) (p : Pool W) (call : Call W) : Prop :=
  LoadsFit cfg call (call.curUids.foldl (Pool.markUsed cfg) p) call.curUids

/-! ## Section 4: What a load writes -/

theorem applyWrites_eq (f : BufferKey → Option W) {ws : List (BufferKey × Option W)}
    (hws : ∀ w ∈ ws, w.2 = f w.1) (slot : Slot W) (key : BufferKey) :
    applyWrites slot ws key = if key ∈ ws.map Prod.fst then f key else slot key := by
  unfold applyWrites
  induction ws generalizing slot with
  | nil => rfl
  | cons w ws ih =>
    have hw := hws w (mem_cons_self ..)
    rw [foldl_cons, ih fun w' hw' => hws w' (mem_cons_of_mem _ hw')]
    by_cases hkey : key = w.1
    · subst hkey
      simp [hw]
    · rw [update_of_ne hkey]
      simp only [map_cons, mem_cons, hkey, false_or]

variable {key : BufferKey} {cfg : PoolConfig} {call : Call W} {p q : Pool W} {uid : Uid} {b : Nat}
  {rest : List Uid}

theorem mem_writeLayer {perExpert : Bool} {weights : Option W} {w : BufferKey × Option W}
    (h : w ∈ writeLayer perExpert key weights) : w = (key, weights) := by
  unfold writeLayer at h
  split at h
  · cases h
  · exact mem_singleton.mp h

theorem writes_eq {adapter : Adapter W} :
    ∀ w ∈ writes cfg adapter, w.2 = adapter.weights w.1 := by
  intro w hw
  rcases mem_append.mp hw with hw | hw
  · obtain ⟨layer, -, hw⟩ := mem_flatMap.mp hw
    rcases mem_append.mp hw with hw | hw
    · obtain ⟨name, -, hw⟩ := mem_flatMap.mp hw
      rw [mem_writeLayer hw]
    · obtain ⟨name, -, hw⟩ := mem_flatMap.mp hw
      rw [mem_writeLayer hw]
  · split at hw
    · obtain ⟨key, -, hw⟩ := mem_flatMap.mp hw
      rw [mem_writeLayer hw]
    · next hnone =>
      obtain ⟨key, hkey, rfl⟩ := List.mem_map.mp hw
      exact (adapter.noEmbedding (Bool.eq_false_iff.mpr hnone) key (cfg.embedding key hkey)).symm

theorem key_mem_writeLayer {perExpert : Bool} {weights : Option W} (h : weights ≠ none) :
    (key, weights) ∈ writeLayer perExpert key weights := by
  unfold writeLayer
  rw [if_neg (by simp [h])]
  exact mem_singleton_self _

theorem mem_writes {adapter : Adapter W} (hkey : key ∈ readKeys cfg)
    (h : adapter.weights key ≠ none) : key ∈ (writes cfg adapter).map Prod.fst := by
  apply List.mem_map.mpr
  refine ⟨(key, adapter.weights key), mem_append.mpr ?_, rfl⟩
  rcases mem_append.mp hkey with hkey | hkey
  · left
    obtain ⟨layer, hlayer, hkey⟩ := mem_flatMap.mp hkey
    refine mem_flatMap.mpr ⟨layer, hlayer, mem_append.mpr ?_⟩
    rcases mem_append.mp hkey with hkey | hkey
    · obtain ⟨name, hname, rfl⟩ := List.mem_map.mp hkey
      exact .inl (mem_flatMap.mpr ⟨name, hname, key_mem_writeLayer h⟩)
    · obtain ⟨name, hname, rfl⟩ := List.mem_map.mp hkey
      exact .inr (mem_flatMap.mpr ⟨name, hname, key_mem_writeLayer h⟩)
  · right
    split
    · exact mem_flatMap.mpr ⟨key, hkey, key_mem_writeLayer h⟩
    · next hnone =>
      exact absurd (adapter.noEmbedding (Bool.eq_false_iff.mpr hnone) key (cfg.embedding key hkey))
        h

theorem load_holds
    (hfits : LoadFits cfg call p b uid) (h : p.loadLoraWeightToBuffer cfg call uid b = (q, true)) :
    Holds cfg (q.assign call uid b) b uid ∧
      q = { p with buffers := update p.buffers b (q.buffers b) } := by
  unfold Pool.loadLoraWeightToBuffer at h
  split at h
  · cases h
  · next ws hws =>
    split at h
    · cases h
    · cases h
      refine ⟨?_, by simp⟩
      cases uid with
      | none =>
        intro key hkey
        cases hws
        change update p.buffers b _ b key = none
        rw [update_self, applyWrites_eq (fun _ => none) (by simp)]
        simp [hkey]
      | some uid =>
        obtain ⟨adapter, hadapter, rfl⟩ := map_eq_some_iff.mp hws
        refine ⟨adapter, ?_, fun key hkey => ?_⟩
        · change update p.lastLoaded uid (call.adapters uid) uid = _
          rw [update_self, hadapter]
        · change update p.buffers b _ b key = _
          rw [update_self, applyWrites_eq adapter.weights writes_eq]
          split
          · rfl
          · next hnot =>
            rw [hfits adapter hadapter key hkey hnot]
            by_contra hne
            exact hnot (mem_writes hkey (Ne.symm hne))

theorem load_fails
    (h : p.loadLoraWeightToBuffer cfg call uid b = (q, false)) :
    q = { p with buffers := update p.buffers b (q.buffers b) } := by
  unfold Pool.loadLoraWeightToBuffer at h
  split at h
  · cases h
    simp
  · split at h
    · cases h
      simp
    · cases h

/-! ## Section 5: Where a load goes -/

/-- The maps are inverse of each other, the policy tracks the residents, and the slots hold what was
loaded. -/
structure Inv (cfg : PoolConfig) (p : Pool W) : Prop where
  inverse : Inverse cfg p
  tracked : ∀ uid b, p.uidToBufferId (some uid) = some b → uid ∈ p.order
  holds : ∀ uid b, p.uidToBufferId uid = some b → Holds cfg p b uid

theorem inv_init (cfg : PoolConfig) : Inv cfg (Pool.init W) where
  inverse uid b := by simp [Pool.init]
  tracked _ _ h := by cases h
  holds _ _ h := by cases h

/-- Neither needed by the batch nor pinned. -/
def Free (call : Call W) (uid : Uid) : Prop := uid ∉ call.curUids ∧ Pool.isPinned call uid = false

theorem mem_candidates :
    uid ∈ p.candidates cfg call ↔
      ∃ b < cfg.maxLorasPerBatch, p.bufferIdToUid b = some uid ∧ Free call uid := by
  simp only [Pool.candidates, mem_filterMap, mem_range, filter_eq_some_iff, Free]
  simp

theorem selectVictim_spec {candidates : List Uid} (hne : candidates ≠ [])
    (htracked : ∀ uid, some uid ∈ candidates → uid ∈ p.order) :
    ∃ victim ∈ candidates, p.selectVictim candidates = some victim := by
  unfold Pool.selectVictim
  split
  · next uid hfind => exact ⟨some uid, by simpa using find?_some hfind, rfl⟩
  · next hnone =>
    have hbase : none ∈ candidates := by
      obtain ⟨uid, rest, rfl⟩ := exists_cons_of_ne_nil hne
      cases uid with
      | none => exact mem_cons_self ..
      | some uid =>
        have hnot := find?_eq_none.mp hnone uid (htracked uid (mem_cons_self ..))
        exact absurd (decide_eq_true (mem_cons_self ..)) hnot
    exact ⟨none, hbase, if_pos hbase⟩

/-- A slot is empty, or a resident that is neither needed nor pinned leaves it; else all residents
are. -/
theorem getAvailable_cases (h : Inv cfg p) :
    (∃ b < cfg.maxLorasPerBatch, p.bufferIdToUid b = none ∧
      p.getAvailableBufferSlot cfg call = .ok (p, b)) ∨
    (∃ victim, ∃ b < cfg.maxLorasPerBatch, p.bufferIdToUid b = some victim ∧ Free call victim ∧
      p.getAvailableBufferSlot cfg call = .ok (p.evict victim b, b)) ∨
    ((∀ b < cfg.maxLorasPerBatch, ∃ uid, p.bufferIdToUid b = some uid ∧ ¬Free call uid) ∧
      p.getAvailableBufferSlot cfg call = .error .noSlots) := by
  unfold Pool.getAvailableBufferSlot
  split
  · next b hfind =>
    left
    have hempty : p.bufferIdToUid b = none := by simpa using find?_some hfind
    exact ⟨b, mem_range.mp (mem_of_find?_eq_some hfind), hempty, rfl⟩
  · next hfull =>
    right
    have hfull : ∀ b < cfg.maxLorasPerBatch, ∃ uid, p.bufferIdToUid b = some uid := by
      intro b hb
      have hb := find?_eq_none.mp hfull b (mem_range.mpr hb)
      exact ne_none_iff_exists'.mp (by simpa using hb)
    dsimp only
    split
    · next hall =>
      right
      refine ⟨fun b hb => ?_, rfl⟩
      obtain ⟨uid, huid⟩ := hfull b hb
      refine ⟨uid, huid, fun hfree => ?_⟩
      have hmem := mem_candidates.mpr ⟨b, hb, huid, hfree⟩
      rw [hall] at hmem
      cases hmem
    · next hall =>
      left
      set use := if (p.candidates cfg call).filter (· ≠ none) = [] then p.candidates cfg call
        else (p.candidates cfg call).filter (· ≠ none) with huse
      have hsub : ∀ uid ∈ use, uid ∈ p.candidates cfg call := by
        intro uid hmem
        rw [huse] at hmem
        split at hmem
        · exact hmem
        · exact mem_of_mem_filter hmem
      have hne : use ≠ [] := by
        rw [huse]
        split
        · exact hall
        · next hsome => exact hsome
      have htracked : ∀ uid, some uid ∈ use → uid ∈ p.order := by
        intro uid hmem
        obtain ⟨b, hb, huid, -⟩ := mem_candidates.mp (hsub _ hmem)
        exact h.tracked uid b ((h.inverse _ _).mpr ⟨hb, huid⟩)
      obtain ⟨victim, hvictim, hselect⟩ := selectVictim_spec hne htracked
      obtain ⟨b, hb, huid, hfree⟩ := mem_candidates.mp (hsub _ hvictim)
      refine ⟨victim, b, hb, huid, hfree, ?_⟩
      rw [hselect]
      dsimp only
      rw [(h.inverse _ _).mpr ⟨hb, huid⟩]

/-- A pool with the empty slot `b` in the place of some victim, as the maps see it. -/
structure Vacated (cfg : PoolConfig) (call : Call W) (p q : Pool W) (b : Nat) : Prop where
  inv : Inv cfg q
  lt : b < cfg.maxLorasPerBatch
  empty : q.bufferIdToUid b = none
  buffers : q.buffers = p.buffers
  lastLoaded : q.lastLoaded = p.lastLoaded
  kept : ∀ uid c, ¬Free call uid → p.uidToBufferId uid = some c → q.uidToBufferId uid = some c
  sub : ∀ uid c, q.bufferIdToUid c = some uid → p.bufferIdToUid c = some uid
  marked : ∀ uid, ¬Free call (some uid) → uid ∈ p.order → uid ∈ q.order

theorem vacated_evict {victim : Uid}
    (h : Inv cfg p) (hb : b < cfg.maxLorasPerBatch) (hvictim : p.bufferIdToUid b = some victim)
    (hfree : Free call victim) : Vacated cfg call p (p.evict victim b) b := by
  have hslot : p.uidToBufferId victim = some b := (h.inverse _ _).mpr ⟨hb, hvictim⟩
  -- the victim has lost its slot; the others are where they were
  have hstays : ∀ uid c, (p.evict victim b).uidToBufferId uid = some c →
      uid ≠ victim ∧ p.uidToBufferId uid = some c := by
    intro uid c huid
    change update p.uidToBufferId victim none uid = some c at huid
    by_cases hne : uid = victim
    · rw [hne, update_self] at huid
      cases huid
    · rw [update_of_ne hne] at huid
      exact ⟨hne, huid⟩
  refine ⟨⟨fun uid c => ?_, fun uid c huid => ?_, fun uid c huid => ?_⟩, hb, update_self ..,
    rfl, rfl, fun uid c hneeded huid => ?_, fun uid c huid => ?_, fun uid hneeded hmem => ?_⟩
  · change update p.uidToBufferId victim none uid = some c ↔
      c < cfg.maxLorasPerBatch ∧ update p.bufferIdToUid b none c = some uid
    by_cases hne : uid = victim
    · subst hne
      rw [update_self]
      refine iff_of_false (by simp) fun hc => ?_
      by_cases hcb : c = b
      · rw [hcb, update_self] at hc
        cases hc.2
      · rw [update_of_ne hcb] at hc
        have hother := (h.inverse _ _).mpr hc
        rw [hslot] at hother
        exact hcb (Option.some.inj hother).symm
    · rw [update_of_ne hne, h.inverse]
      refine and_congr_right fun _ => ?_
      by_cases hcb : c = b
      · subst hcb
        rw [update_self, hvictim]
        exact iff_of_false (fun heq => hne (Option.some.inj heq).symm) (by simp)
      · rw [update_of_ne hcb]
  · obtain ⟨hne, hold⟩ := hstays (some uid) c huid
    have hmem := h.tracked uid c hold
    change uid ∈ victim.elim p.order p.order.erase
    cases victim with
    | none => exact hmem
    | some v => exact (mem_erase_of_ne fun heq => hne (congrArg some heq)).mpr hmem
  · obtain ⟨-, hold⟩ := hstays uid c huid
    exact h.holds uid c hold
  · change update p.uidToBufferId victim none uid = some c
    have hne : uid ≠ victim := by
      rintro rfl
      exact hneeded hfree
    rw [update_of_ne hne, huid]
  · change update p.bufferIdToUid b none c = some uid at huid
    by_cases hcb : c = b
    · rw [hcb, update_self] at huid
      cases huid
    · rwa [update_of_ne hcb] at huid
  · change uid ∈ victim.elim p.order p.order.erase
    cases victim with
    | none => exact hmem
    | some v =>
      have hne : uid ≠ v := by
        rintro rfl
        exact hneeded hfree
      exact (mem_erase_of_ne hne).mpr hmem

theorem vacated_self (h : Inv cfg p)
    (hb : b < cfg.maxLorasPerBatch) (hempty : p.bufferIdToUid b = none) : Vacated cfg call p p b :=
  ⟨h, hb, hempty, rfl, rfl, fun _ _ _ huid => huid, fun _ _ huid => huid, fun _ _ hmem => hmem⟩

theorem Vacated.loaded
    (h : Vacated cfg call p q b) (slot : Slot W) : Inv cfg
    { q with buffers := update q.buffers b slot } := by
  have hother : ∀ uid c, q.uidToBufferId uid = some c → c ≠ b := by
    intro uid c huid heq
    have hc := (h.inv.inverse _ _).mp huid
    rw [heq, h.empty] at hc
    cases hc.2
  refine ⟨h.inv.inverse, h.inv.tracked, fun uid c huid => ?_⟩
  have hholds := h.inv.holds uid c huid
  have hsame : update q.buffers b slot c = q.buffers c := update_of_ne (hother uid c huid) ..
  cases uid with
  | none => exact fun key hkey => (congrFun hsame key).trans (hholds key hkey)
  | some uid =>
    obtain ⟨adapter, hadapter, hcontent⟩ := hholds
    exact ⟨adapter, hadapter, fun key hkey => (congrFun hsame key).trans (hcontent key hkey)⟩

theorem Vacated.assigned {p q r : Pool W}
    (h : Vacated cfg call p q b) (hr : r = { q with buffers := update q.buffers b (r.buffers b) })
    (huid : q.uidToBufferId uid = none) (hmarked : ∀ u, uid = some u → u ∈ q.order)
    (hholds : Holds cfg (r.assign call uid b) b uid) : Inv cfg (r.assign call uid b) := by
  have hinv := h.loaded (r.buffers b)
  rw [← hr] at hinv
  have hrmap : r.uidToBufferId = q.uidToBufferId := by rw [hr]
  have hrslot : r.bufferIdToUid = q.bufferIdToUid := by rw [hr]
  have hrorder : r.order = q.order := by rw [hr]
  have hempty : r.bufferIdToUid b = none := by rw [hrslot, h.empty]
  -- the loaded adapter is in slot `b`; the others are where they were
  have hcases : ∀ u c, (r.assign call uid b).uidToBufferId u = some c →
      (u = uid ∧ c = b) ∨ (u ≠ uid ∧ r.uidToBufferId u = some c) := by
    intro u c hu
    change update r.uidToBufferId uid (some b) u = some c at hu
    by_cases hne : u = uid
    · rw [hne, update_self] at hu
      exact .inl ⟨hne, (Option.some.inj hu).symm⟩
    · rw [update_of_ne hne] at hu
      exact .inr ⟨hne, hu⟩
  refine ⟨fun u c => ?_, fun u c hu => ?_, fun u c hu => ?_⟩
  · change update r.uidToBufferId uid (some b) u = some c ↔
      c < cfg.maxLorasPerBatch ∧ update r.bufferIdToUid b (some uid) c = some u
    by_cases hne : u = uid
    · subst hne
      rw [update_self]
      constructor
      · intro hc
        cases hc
        exact ⟨h.lt, update_self ..⟩
      · rintro ⟨hlt, hc⟩
        by_cases hcb : c = b
        · rw [hcb]
        · rw [update_of_ne hcb] at hc
          have hres := (hinv.inverse _ _).mpr ⟨hlt, hc⟩
          rw [hrmap, huid] at hres
          cases hres
    · rw [update_of_ne hne, hinv.inverse]
      refine and_congr_right fun _ => ?_
      by_cases hcb : c = b
      · subst hcb
        rw [update_self, hempty]
        exact iff_of_false (by simp) fun heq => hne (Option.some.inj heq).symm
      · rw [update_of_ne hcb]
  · change u ∈ r.order
    rw [hrorder]
    rcases hcases _ _ hu with ⟨heq, -⟩ | ⟨-, hold⟩
    · exact hmarked u heq.symm
    · exact h.inv.tracked u c (by rw [← hrmap, hold])
  · rcases hcases _ _ hu with ⟨rfl, rfl⟩ | ⟨hne, hold⟩
    · exact hholds
    · have hkeep := hinv.holds u c hold
      cases u with
      | none => exact hkeep
      | some u =>
        obtain ⟨adapter, hadapter, hcontent⟩ := hkeep
        refine ⟨adapter, ?_, hcontent⟩
        change uid.elim r.lastLoaded (fun v => update r.lastLoaded v (call.adapters v)) u = _
        cases uid with
        | none => exact hadapter
        | some v =>
          change update r.lastLoaded v (call.adapters v) u = _
          rw [update_of_ne fun heq => hne (congrArg some heq), hadapter]

/-! ## Section 6: The loop -/

/-- What the loop over `rest` promises. -/
structure LoopGood (cfg : PoolConfig) (call : Call W) (p : Pool W) (rest : List Uid)
    (result : Pool W × Option Raised) : Prop where
  inv : Inv cfg result.1
  kept : ∀ front back, rest = front ++ back → (p.prepare cfg call front).2 = none →
    Stays call (p.prepare cfg call front).1 result.1
  noAssertion : result.2 ≠ some .selectVictim ∧ result.2 ≠ some .keyError
  resident : result.2 = none → ∀ uid ∈ rest, (result.1.uidToBufferId uid).isSome = true
  noSlots : result.2 = some .noSlots → cfg.maxLorasPerBatch < (needed cfg call p).card

theorem mem_needed :
    uid ∈ needed cfg call p ↔ uid ∈ call.curUids ∨
      ∃ b < cfg.maxLorasPerBatch, p.bufferIdToUid b = some uid ∧ Pool.isPinned call uid = true := by
  simp only [needed, Finset.mem_union, List.mem_toFinset, mem_filter, mem_filterMap,
    mem_range]
  refine or_congr_right ⟨?_, ?_⟩
  · rintro ⟨⟨b, hb, huid⟩, hpinned⟩
    exact ⟨b, hb, huid, hpinned⟩
  · rintro ⟨b, hb, huid, hpinned⟩
    exact ⟨⟨b, hb, huid⟩, hpinned⟩

theorem Stays.refl (call : Call W) (p : Pool W) : Stays call p p := fun _ _ huid _ => ⟨huid, rfl⟩

theorem Stays.trans {p q r : Pool W} (h : Stays call p q) (h' : Stays call q r) :
    Stays call p r := by
  intro uid b huid hneeded
  obtain ⟨hmap, hbuffers⟩ := h uid b huid hneeded
  obtain ⟨hmap', hbuffers'⟩ := h' uid b hmap hneeded
  exact ⟨hmap', hbuffers'.trans hbuffers⟩

theorem kept_cons
    {result : Pool W} (hself : Stays call p result)
    (hlater : ∀ front back, rest = front ++ back → (p.prepare cfg call (uid :: front)).2 = none →
      Stays call (p.prepare cfg call (uid :: front)).1 result) (front back : List Uid)
    (heq : uid :: rest = front ++ back) (hnone : (p.prepare cfg call front).2 = none) :
    Stays call (p.prepare cfg call front).1 result := by
  cases front with
  | nil => exact hself
  | cons u front =>
    obtain ⟨rfl, hrest⟩ := List.cons.inj heq
    exact hlater front back hrest hnone

theorem LoopGood.stays
    {result : Pool W × Option Raised} (h : LoopGood cfg call p rest result) :
    Stays call p result.1 :=
  h.kept [] rest rfl rfl

theorem not_free :
    ¬Free call uid ↔ uid ∈ call.curUids ∨ Pool.isPinned call uid = true := by
  unfold Free
  rw [not_and_or, not_not, Bool.not_eq_false]

/-- Where all residents are needed, the batch does not fit with one more uid. -/
theorem lt_card_needed (h : Inv cfg p)
    (hcur : uid ∈ call.curUids) (hout : p.uidToBufferId uid = none)
    (hfull : ∀ b < cfg.maxLorasPerBatch, ∃ u, p.bufferIdToUid b = some u ∧ ¬Free call u) :
    cfg.maxLorasPerBatch < (needed cfg call p).card := by
  have hres : ∀ b < cfg.maxLorasPerBatch,
      p.bufferIdToUid b = some ((p.bufferIdToUid b).getD none) := by
    intro b hb
    obtain ⟨u, hu, -⟩ := hfull b hb
    rw [hu, getD_some]
  have hcard : (Finset.range cfg.maxLorasPerBatch).card ≤ ((needed cfg call p).erase uid).card := by
    apply Finset.card_le_card_of_injOn fun b => (p.bufferIdToUid b).getD none
    · intro b hb
      have hb := Finset.mem_range.mp hb
      obtain ⟨u, hu, hneeded⟩ := hfull b hb
      have hslot := (h.inverse u b).mpr ⟨hb, hu⟩
      simp only [hu, getD_some, Finset.coe_erase, Set.mem_sdiff, Set.mem_singleton_iff,
        Finset.mem_coe]
      refine ⟨mem_needed.mpr ?_, ?_⟩
      · exact (not_free.mp hneeded).imp_right fun hpinned => ⟨b, hb, hu, hpinned⟩
      · rintro rfl
        rw [hout] at hslot
        cases hslot
    · intro b hb c hc heq
      have hb := Finset.mem_range.mp hb
      have hc := Finset.mem_range.mp hc
      dsimp only at heq
      have hslot := (h.inverse _ b).mpr ⟨hb, hres b hb⟩
      have hslot' := (h.inverse _ c).mpr ⟨hc, hres c hc⟩
      rw [heq, hslot'] at hslot
      exact (Option.some.inj hslot).symm
  have hmem : uid ∈ needed cfg call p := mem_needed.mpr (.inl hcur)
  rw [Finset.card_range, Finset.card_erase_of_mem hmem] at hcard
  have hpos := Finset.card_pos.mpr ⟨uid, hmem⟩
  omega

theorem prepare_good :
    ∀ {p : Pool W}, Inv cfg p → (∀ uid ∈ rest, uid ∈ call.curUids) →
      (∀ uid, some uid ∈ call.curUids → uid ∈ p.order) → LoadsFit cfg call p rest →
      LoopGood cfg call p rest (p.prepare cfg call rest) := by
  induction rest with
  | nil =>
    intro p h _ _ _
    refine ⟨h, fun front back heq _ => ?_,
      ⟨by simp [Pool.prepare], by simp [Pool.prepare]⟩, by simp, by simp [Pool.prepare]⟩
    rw [(nil_eq_append_iff.mp heq).1]
    exact Stays.refl call p
  | cons uid rest ih =>
    intro p h hsub hmarked hfits
    have hcur : uid ∈ call.curUids := hsub uid (mem_cons_self ..)
    have hsub' : ∀ u ∈ rest, u ∈ call.curUids := fun u hu => hsub u (mem_cons_of_mem _ hu)
    by_cases hresident : (p.uidToBufferId uid).isSome = true
    · -- a resident adapter is passed over
      have hskip : ∀ us, p.prepare cfg call (uid :: us) = p.prepare cfg call us := fun us => by
        rw [Pool.prepare, if_pos hresident]
      unfold LoadsFit at hfits
      rw [if_pos hresident] at hfits
      rw [hskip]
      have hrest := ih h hsub' hmarked hfits
      refine ⟨hrest.inv, kept_cons hrest.stays fun front back heq => ?_, hrest.noAssertion,
        fun hnone u hu => ?_, hrest.noSlots⟩
      · rw [hskip]
        exact hrest.kept front back heq
      rcases mem_cons.mp hu with rfl | hu
      · obtain ⟨b, hb⟩ := isSome_iff_exists.mp hresident
        rw [(hrest.stays _ b hb (.inl hcur)).1, isSome_some]
      · exact hrest.resident hnone u hu
    · have hout : p.uidToBufferId uid = none := by simpa using hresident
      have hload : ∀ q b, Vacated cfg call p q b → p.getAvailableBufferSlot cfg call = .ok (q, b) →
          LoopGood cfg call p (uid :: rest) (p.prepare cfg call (uid :: rest)) := by
        intro q b hv heq
        have hturn : ∀ us, p.prepare cfg call (uid :: us) =
            match q.loadLoraWeightToBuffer cfg call uid b with
            | (r, false) => (r, some .load)
            | (r, true) => (r.assign call uid b).prepare cfg call us := fun us => by
          rw [Pool.prepare, if_neg hresident, heq]
        unfold LoadsFit at hfits
        rw [if_neg hresident, heq] at hfits
        dsimp only at hfits
        have hother : ∀ u c, p.uidToBufferId u = some c → ¬Free call u → c ≠ b := by
          intro u c hu hneeded hcb
          have hc := (hv.inv.inverse _ _).mp (hv.kept u c hneeded hu)
          rw [hcb, hv.empty] at hc
          cases hc.2
        obtain ⟨r, returned, hr⟩ : ∃ r returned, q.loadLoraWeightToBuffer cfg call uid b =
            (r, returned) :=
          ⟨_, _, rfl⟩
        rw [hr] at hfits hturn
        rw [hturn]
        -- how the load ends decides whether the batch goes on
        cases returned with
        | false =>
          have hframe := load_fails hr
          have hinv := hv.loaded (r.buffers b)
          rw [← hframe] at hinv
          refine ⟨hinv, kept_cons (fun u c hu hneeded => ⟨?_, ?_⟩) fun front _ _ hnone => ?_,
            ⟨by simp, by simp⟩, by simp, by simp⟩
          · change r.uidToBufferId u = some c
            rw [hframe]
            exact hv.kept u c (not_free.mpr hneeded) hu
          · change r.buffers c = p.buffers c
            rw [hframe, ← hv.buffers]
            exact update_of_ne (hother u c hu (not_free.mpr hneeded)) ..
          · -- the load has raised, so no longer front of the batch went through
            rw [hturn] at hnone
            cases hnone
        | true =>
          obtain ⟨hholds, hframe⟩ := load_holds hfits.1 hr
          have hqout : q.uidToBufferId uid = none := by
            cases huid : q.uidToBufferId uid with
            | none => rfl
            | some c =>
              obtain ⟨hlt, hc⟩ := (hv.inv.inverse _ _).mp huid
              rw [(h.inverse _ _).mpr ⟨hlt, hv.sub _ _ hc⟩] at hout
              cases hout
          have hqmarked : ∀ u, some u ∈ call.curUids → u ∈ q.order := fun u hu =>
            hv.marked u (not_free.mpr (.inl hu)) (hmarked u hu)
          have hinv := hv.assigned hframe hqout (fun u hu => hqmarked u (hu ▸ hcur)) hholds
          have hrorder : (r.assign call uid b).order = q.order := by
            change r.order = q.order
            rw [hframe]
          have hrest := ih hinv hsub' (by rw [hrorder]; exact hqmarked) hfits.2
          have hstays : Stays call p (r.assign call uid b) := by
            intro u c hu hneeded
            have hneeded := not_free.mpr hneeded
            constructor
            · change update r.uidToBufferId uid (some b) u = some c
              have hne : u ≠ uid := by
                rintro rfl
                rw [hout] at hu
                cases hu
              rw [update_of_ne hne, hframe]
              exact hv.kept u c hneeded hu
            · change r.buffers c = p.buffers c
              rw [hframe, ← hv.buffers]
              exact update_of_ne (hother u c hu hneeded) ..
          refine ⟨hrest.inv, kept_cons (hstays.trans hrest.stays) fun front back heq => ?_,
            hrest.noAssertion, fun hnone u hu => ?_, fun hraised => ?_⟩
          · rw [hturn]
            exact hrest.kept front back heq
          · rcases mem_cons.mp hu with rfl | hu
            · have hslot : (r.assign call u b).uidToBufferId u = some b := update_self ..
              rw [(hrest.stays u b hslot (.inl hcur)).1, isSome_some]
            · exact hrest.resident hnone u hu
          · -- what is pinned now was pinned and resident before, or is in the batch
            refine (hrest.noSlots hraised).trans_le (Finset.card_le_card fun u hu => ?_)
            rw [mem_needed] at hu ⊢
            rcases hu with hu | ⟨c, hc, huid, hpinned⟩
            · exact .inl hu
            · change update r.bufferIdToUid b (some uid) c = some u at huid
              by_cases hcb : c = b
              · rw [hcb, update_self] at huid
                cases huid
                exact .inl hcur
              · rw [update_of_ne hcb, hframe] at huid
                exact .inr ⟨c, hc, hv.sub _ _ huid, hpinned⟩
      rcases @getAvailable_cases _ cfg call p h with
        ⟨b, hb, hempty, heq⟩ | ⟨victim, b, hb, hvictim, hfree, heq⟩ | ⟨hfull, heq⟩
      · exact hload p b (vacated_self h hb hempty) heq
      · exact hload _ b (vacated_evict h hb hvictim hfree) heq
      · -- every slot is pinned or needed: `get_available_buffer_slot` raises
        have hraise : ∀ us, p.prepare cfg call (uid :: us) = (p, some .noSlots) := fun us => by
          rw [Pool.prepare, if_neg hresident, heq]
        rw [hraise]
        refine ⟨h, kept_cons (Stays.refl call p) fun front _ _ hnone => ?_,
          ⟨by simp, by simp⟩, by simp, fun _ => lt_card_needed h hcur hout hfull⟩
        rw [hraise] at hnone
        cases hnone

/-! ## Section 7: Calls -/

/-- Marking adapters as used changes the order only, and loses none. -/
theorem markUsed_spec (cfg : PoolConfig) (p : Pool W) (uid : Uid) :
    ∃ order, p.markUsed cfg uid = { p with order := order } ∧ (∀ u ∈ p.order, u ∈ order) ∧
      ∀ u, uid = some u → u ∈ order := by
  cases uid with
  | none => exact ⟨p.order, rfl, fun _ hu => hu, by simp⟩
  | some uid =>
    unfold Pool.markUsed
    dsimp only
    split
    · refine ⟨_, rfl, fun u hu => ?_, by simp⟩
      by_cases heq : u = uid
      · simp [heq]
      · exact mem_append_left _ ((mem_erase_of_ne heq).mpr hu)
    · split
      · next hmem => exact ⟨p.order, rfl, fun _ hu => hu, fun u hu => Option.some.inj hu ▸ hmem⟩
      · exact ⟨_, rfl, fun _ hu => mem_append_left _ hu, by simp⟩

theorem markAll_spec (cfg : PoolConfig) (uids : List Uid) (p : Pool W) :
    ∃ order, uids.foldl (Pool.markUsed cfg) p = { p with order := order } ∧
    (∀ u ∈ p.order, u ∈ order) ∧ ∀ u, some u ∈ uids → u ∈ order := by
  induction uids generalizing p with
  | nil => exact ⟨p.order, rfl, fun _ hu => hu, by simp⟩
  | cons uid uids ih =>
    obtain ⟨order, heq, hold, hnew⟩ := markUsed_spec cfg p uid
    obtain ⟨order', heq', hold', hnew'⟩ := ih (p.markUsed cfg uid)
    rw [heq] at heq' hold'
    refine ⟨order', ?_, fun u hu => hold' u (hold u hu), fun u hu => ?_⟩
    · rw [foldl_cons, heq, heq']
    · rcases mem_cons.mp hu with hu | hu
      · exact hold' u (hnew u hu.symm)
      · exact hnew' u hu

theorem prepareLoraBatch_good (h : Inv cfg p)
    (hfits : CallFits cfg p call) :
    Inv cfg (p.prepareLoraBatch cfg call).1 ∧
    CallGood cfg p call (p.prepareLoraBatch cfg call) := by
  obtain ⟨order, heq, hold, hmarked⟩ := markAll_spec cfg call.curUids p
  unfold CallFits at hfits
  unfold Pool.prepareLoraBatch
  rw [heq] at hfits ⊢
  have hinv : Inv cfg { p with order := order } :=
    ⟨h.inverse, fun uid b huid => hold uid (h.tracked uid b huid), h.holds⟩
  have hgood := prepare_good hinv (fun _ hu => hu) hmarked hfits
  refine ⟨hgood.inv, hgood.inv.inverse, hgood.inv.holds, hgood.stays, ?_, hgood.noAssertion,
    hgood.resident, hgood.noSlots⟩
  rw [heq]
  exact hgood.kept

/-- One call, whether it returns or raises. -/
def step (cfg : PoolConfig) (p : Pool W) (call : Call W) : Option (Pool W) :=
  some (p.prepareLoraBatch cfg call).1

/-- Every call of a run is good, if each load leaves out only buffers of zeros. -/
theorem good_along (cfg : PoolConfig) (calls : List (Call W))
    (hfits : Along (step cfg) (CallFits cfg) (Pool.init W) calls) :
    Along (step cfg) (fun p call => CallGood cfg p call (p.prepareLoraBatch cfg call)) (Pool.init W)
      calls := by
  have hinv := hfits.invariant (Inv cfg)
    (fun p call q h hf heq => by
      cases heq
      exact (prepareLoraBatch_good h hf).1)
    (inv_init cfg)
  exact hinv.imp fun _ _ _ h => (prepareLoraBatch_good h.1 h.2).2

theorem callFits_of_dense (hdense : ∀ (adapter : Adapter W), ∀ key ∈ readKeys cfg,
    key ∈ (writes cfg adapter).map Prod.fst) (p : Pool W) (call : Call W) :
    CallFits cfg p call := by
  unfold CallFits
  generalize call.curUids.foldl (Pool.markUsed cfg) p = q
  generalize call.curUids = rest
  induction rest generalizing q with
  | nil => trivial
  | cons uid rest ih =>
    unfold LoadsFit
    split
    · exact ih q
    · split
      · trivial
      · refine ⟨?_, ?_⟩
        · cases uid with
          | none => trivial
          | some uid => exact fun adapter _ key hkey hnot => absurd (hdense adapter key hkey) hnot
        · split
          · trivial
          · exact ih _

def attentionPool : PoolConfig where
  maxLorasPerBatch := 2
  numLayer := 1
  aBuffer := ["qkv_proj"]
  bBuffer := ["qkv_proj"]
  active := fun _ _ => true
  expertsSharedOuterLoras := false
  embeddingBuffers := []
  embedding := by simp
  isLru := true

/-- An adapter with one weight everywhere in `keys`. -/
def sampleAdapter (keys : List BufferKey) (weight : Nat) : Adapter Nat where
  weights key := if key ∈ keys ∧ key.isEmbedding = false then some weight else none
  hasEmbeddingLayers := false
  noEmbedding _ key hkey := by simp [hkey]

/-- A call for some adapters, whose loads raise after the given number of writes. -/
def sampleCall (uids : List Uid) (fails : Uid → Option Nat) (keys : List BufferKey) : Call Nat where
  curUids := uids
  adapters uid := if uid = "x" then some (sampleAdapter keys 7) else some (sampleAdapter [] 0)
  pinned uid := uid = "z"
  fails := fails

theorem good_along_attention :
    Along (step attentionPool)
      (fun p call => CallGood attentionPool p call (p.prepareLoraBatch attentionPool call))
      (Pool.init Nat)
      [sampleCall [none, some "x"] (fun _ => none) [.loraA "qkv_proj" 0],
        sampleCall [some "y", some "z"] (fun uid => if uid = some "z" then some 1 else none) [],
        sampleCall [some "z", some "x"] (fun _ => none) [.loraA "qkv_proj" 0]] := by
  apply good_along
  apply Along.of_forall
  intro p call
  apply callFits_of_dense
  intro adapter key hkey
  simpa [readKeys, writes, writeLayer, attentionPool, isMoe] using hkey

def expertPool : PoolConfig where
  maxLorasPerBatch := 1
  numLayer := 1
  aBuffer := ["gate_up_proj_moe"]
  bBuffer := ["gate_up_proj_moe"]
  active := fun _ _ => true
  expertsSharedOuterLoras := false
  embeddingBuffers := []
  embedding := by simp
  isLru := true

/-- The adapter `y` has no weights for the experts: its slot holds those of `x`. -/
theorem expertPool_leaks :
    ¬Along (step expertPool)
      (fun p call => CallGood expertPool p call (p.prepareLoraBatch expertPool call))
      (Pool.init Nat)
      [sampleCall [some "x"] (fun _ => none) [.loraA "gate_up_proj_moe" 0],
        sampleCall [some "y"] (fun _ => none) [.loraA "gate_up_proj_moe" 0]] := by
  rintro ⟨-, hsecond, -⟩
  obtain ⟨adapter, hadapter, hcontent⟩ := hsecond.holds (some "y") 0 (by decide)
  have hkey := hcontent (.loraA "gate_up_proj_moe" 0) (by decide)
  have hempty : adapter.weights (.loraA "gate_up_proj_moe" 0) = none := by
    cases hadapter
    decide
  rw [hempty] at hkey
  revert hkey
  decide

end Sglang.Lora.MemPool
