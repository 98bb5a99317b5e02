import Mathlib.Data.List.AList
import Sglang.Disaggregation.RoomStatus

/-!
# The Failure of a Prefill Node

Model of what a decode engine keeps of the prefill nodes it is connected to, and drops when one of
them fails (`CommonKVManager` and `CommonKVReceiver`, `disaggregation/common/conn.py`).

- `setupBootstrapInfos`: the cached connections, under keys composed of an address and three ranks,
- `handleNodeFailure`: what goes when a node does not answer any more,
- `CreatedFor`: whose entry a key is; `CreatedFor.unique` reads it off the key,
- `touchesOnly_iff`: a failure touches only its own node exactly when the address is not the
  beginning of the key of another one, and the node shares no open endpoint.
-/

namespace Sglang.Disaggregation.NodeFailure

open List Option Function
open RoomStatus

/-! ## Section 1: What is kept of the nodes -/

/-- An entry of `bootstrap_infos`. -/
structure BootstrapInfo where
  rankIp : Option String
  rankPort : Option Nat
  isDummy : Bool
deriving DecidableEq

/-- The fields of `PrefillServerInfo` that a receiver reads. -/
structure PrefillServerInfo where
  targetTpRank : Nat
  targetTpRanks : List Nat
  targetCpRanks : List Nat
  targetPpRanks : List Nat

abbrev ConnectionPool := AList fun _ : String => List BootstrapInfo

/-- The fields of `CommonKVManager`, and the keys of `CommonKVReceiver._socket_cache`. -/
structure KVManager where
  isMlaBackend : Bool
  connectionPool : ConnectionPool
  prefillInfoTable : String → Option PrefillServerInfo
  addrToRoomsTracker : String → List Nat
  requestStatus : Nat → Option KVPoll
  failureRecords : Nat → Option String
  socketCache : List String

/-- A `CommonKVReceiver` after `init` has read the parallel info. -/
structure KVReceiver where
  bootstrapAddr : String
  bootstrapRoom : Nat
  prefillDpRank : Nat
  prefillInfo : PrefillServerInfo

def bootstrapKey (bootstrapAddr : String) (dpRank cpRank tpRank : Nat) : String :=
  bootstrapAddr ++ "_" ++ toString dpRank ++ "_" ++ toString cpRank ++ "_" ++ toString tpRank

namespace KVManager

/-- `record_failure` and `update_status` with `Failed`. -/
def fail (m : KVManager) (room : Nat) (reason : String) : KVManager :=
  { m with
    failureRecords := update m.failureRecords room (some reason)
    requestStatus := updateStatus m.requestStatus room .failed }

/-! ## Section 2: Connections are set up -/

/-- How `_setup_bootstrap_infos` ends. -/
inductive Setup where
  | infos (bootstrapInfos : List BootstrapInfo)
  | failed
  | assertionError

/-- The infos of one CP rank; an error names the ranks whose info could not be fetched. -/
def fetchInfos (m : KVManager) (r : KVReceiver)
    (fetch : Nat → Nat → Nat → Nat → Option BootstrapInfo) (cpRank : Nat) : Except (Nat × Nat)
    (List BootstrapInfo) :=
  let ranks := r.prefillInfo.targetTpRanks.flatMap fun tp =>
    r.prefillInfo.targetPpRanks.reverse.map fun pp => (tp, pp)
  ranks.mapM fun rank =>
    match fetch r.prefillDpRank cpRank rank.1 rank.2 with
    | some info =>
      .ok { info with isDummy := m.isMlaBackend && rank.1 ≠ r.prefillInfo.targetTpRank }
    | none => .error rank

def couldNotFetch (dpRank cpRank tpRank ppRank : Nat) : String :=
  "Could not fetch bootstrap info for: prefill_dp_rank: " ++ toString dpRank ++
    " prefill_cp_rank: " ++ toString cpRank ++ " target_tp_rank: " ++ toString tpRank ++
    " and target_pp_rank " ++ toString ppRank

/-- The loop of `_setup_bootstrap_infos` over the CP ranks. -/
def setupFor (r : KVReceiver) (fetch : Nat → Nat → Nat → Nat → Option BootstrapInfo) :
    KVManager → List BootstrapInfo → List Nat → KVManager × Setup
  | m, all, [] => (m, .infos all)
  | m, all, cpRank :: rest =>
    let key := bootstrapKey r.bootstrapAddr r.prefillDpRank cpRank r.prefillInfo.targetTpRank
    match m.connectionPool.lookup key with
    | some infos =>
      if infos = [] then (m, .assertionError) else setupFor r fetch m (all ++ infos) rest
    | none =>
      match m.fetchInfos r fetch cpRank with
      | .error rank =>
        (m.fail r.bootstrapRoom (couldNotFetch r.prefillDpRank cpRank rank.1 rank.2), .failed)
      | .ok infos =>
        let m := { m with connectionPool := m.connectionPool.insert key infos }
        if infos = [] then (m, .assertionError) else setupFor r fetch m (all ++ infos) rest

def setupBootstrapInfos (m : KVManager) (r : KVReceiver)
    (fetch : Nat → Nat → Nat → Nat → Option BootstrapInfo) : KVManager × Setup :=
  setupFor r fetch m [] r.prefillInfo.targetCpRanks

/-! ## Section 3: A node fails -/

/-- `k.startswith(prefix)`. -/
def startsWith (k addr : String) : Bool := addr.toList.isPrefixOf k.toList

/-- `NetworkAddress(ip, port).to_tcp()`; `isIpv6` is whether `ipaddress.IPv6Address` takes the
text. -/
def toTcp (isIpv6 : String → Bool) (ip : String) (port : Nat) : String :=
  let bracketed := ip.toList.head? = some '[' ∧ ip.toList.getLast? = some ']'
  let host := if bracketed then String.ofList (ip.toList.drop 1).dropLast else ip
  "tcp://" ++ (if isIpv6 host then "[" ++ host ++ "]" else host) ++ ":" ++ toString port

/-- The endpoint of an info that has an address and a port. -/
def endpoint (isIpv6 : String → Bool) (info : BootstrapInfo) : Option String :=
  match info.rankIp, info.rankPort with
  | some ip, some port => if ip ≠ "" ∧ port ≠ 0 then some (toTcp isIpv6 ip port) else none
  | _, _ => none

def lostConnection (failedBootstrapAddr : String) : String :=
  "Lost connection with prefill instance (bootstrap_addr: " ++ failedBootstrapAddr ++ ")"

def failRoom (failedBootstrapAddr : String) (m : KVManager) (room : Nat) : KVManager :=
  match m.requestStatus room with
  | none => m
  | some status => if status ≠ .success then m.fail room (lostConnection failedBootstrapAddr) else m

def handleNodeFailure (isIpv6 : String → Bool) (m : KVManager) (failedBootstrapAddr : String) :
    KVManager :=
  let keysToRemove := m.connectionPool.keys.filter fun k => startsWith k failedBootstrapAddr
  let staleEndpoints := keysToRemove.flatMap fun k =>
    ((m.connectionPool.lookup k).getD []).filterMap (endpoint isIpv6)
  let possibleAffectedRooms := m.addrToRoomsTracker failedBootstrapAddr
  let m := { m with
    connectionPool := keysToRemove.foldl (fun pool k => pool.erase k) m.connectionPool
    prefillInfoTable := update m.prefillInfoTable failedBootstrapAddr none
    addrToRoomsTracker := update m.addrToRoomsTracker failedBootstrapAddr []
    socketCache := staleEndpoints.foldl (fun cache e => cache.filter (· ≠ e)) m.socketCache }
  possibleAffectedRooms.foldl (failRoom failedBootstrapAddr) m

end KVManager

/-! ## Section 4: Whose entry a key is -/

/-- `_setup_bootstrap_infos` composes the key for a receiver of this address. -/
def CreatedFor (addr key : String) : Prop :=
    ∃ dpRank cpRank tpRank, key = bootstrapKey addr dpRank cpRank tpRank

theorem append_cons_inj {α : Type*} {sep : α} {xs ys xs' ys' : List α} (h : sep ∉ ys)
    (h' : sep ∉ ys') (heq : xs ++ sep :: ys = xs' ++ sep :: ys') : xs = xs' ∧ ys = ys' := by
  rcases append_eq_append_iff.mp heq with ⟨as, rfl, hrest⟩ | ⟨as, rfl, hrest⟩
  · cases as with
    | nil => exact ⟨(append_nil _).symm, (List.cons.inj hrest).2⟩
    | cons a as =>
      have hmem : sep ∈ ys := by
        rw [(List.cons.inj hrest).2]
        exact mem_append_right _ (mem_cons_self ..)
      exact absurd hmem h
  · cases as with
    | nil => exact ⟨append_nil _, ((List.cons.inj hrest).2).symm⟩
    | cons a as =>
      have hmem : sep ∈ ys' := by
        rw [(List.cons.inj hrest).2]
        exact mem_append_right _ (mem_cons_self ..)
      exact absurd hmem h'

theorem toList_bootstrapKey (addr : String) (dpRank cpRank tpRank : Nat) :
    (bootstrapKey addr dpRank cpRank tpRank).toList =
      ((addr.toList ++ '_' :: Nat.toDigits 10 dpRank) ++ '_' :: Nat.toDigits 10 cpRank) ++
        '_' :: Nat.toDigits 10 tpRank := by
  simp [bootstrapKey, String.toList_append]

/-- The text of a rank has no underscore, so a key is created for one address. -/
theorem CreatedFor.unique {a b key : String} (ha : CreatedFor a key) (hb : CreatedFor b key) :
    a = b := by
  obtain ⟨d, c, t, rfl⟩ := ha
  obtain ⟨d', c', t', heq⟩ := hb
  have htext := congrArg String.toList heq
  rw [toList_bootstrapKey, toList_bootstrapKey] at htext
  have hdigits := @Nat.underscore_not_in_toDigits
  have hcp := (append_cons_inj hdigits hdigits htext).1
  have hdp := (append_cons_inj hdigits hdigits hcp).1
  exact String.toList_injective (append_cons_inj hdigits hdigits hdp).1

theorem CreatedFor.startsWith {addr key : String} (h : CreatedFor addr key) :
    KVManager.startsWith key addr = true := by
  obtain ⟨d, c, t, rfl⟩ := h
  rw [KVManager.startsWith, isPrefixOf_iff_prefix, toList_bootstrapKey, append_assoc,
    append_assoc]
  exact prefix_append _ _

theorem lookup_setupBootstrapInfos (m : KVManager) (r : KVReceiver)
    (fetch : Nat → Nat → Nat → Nat → Option BootstrapInfo) (key : String)
    (h : ¬CreatedFor r.bootstrapAddr key) :
    (m.setupBootstrapInfos r fetch).1.connectionPool.lookup key = m.connectionPool.lookup key := by
  unfold KVManager.setupBootstrapInfos
  generalize ([] : List BootstrapInfo) = all
  generalize r.prefillInfo.targetCpRanks = cpRanks
  induction cpRanks generalizing m all with
  | nil => rfl
  | cons cpRank rest ih =>
    have hne : key ≠
        bootstrapKey r.bootstrapAddr r.prefillDpRank cpRank r.prefillInfo.targetTpRank :=
      fun heq => h ⟨_, _, _, heq⟩
    unfold KVManager.setupFor
    dsimp only
    split
    · split
      · rfl
      · exact ih m _
    · split
      · rfl
      · split
        · exact AList.lookup_insert_ne hne
        · rw [ih]
          exact AList.lookup_insert_ne hne

theorem lookup_setupFor {r : KVReceiver} {fetch : Nat → Nat → Nat → Nat → Option BootstrapInfo}
    {key : String} {infos : List BootstrapInfo} (cpRanks : List Nat) : ∀ {m : KVManager}
    {all : List BootstrapInfo}, m.connectionPool.lookup key = some infos →
        (KVManager.setupFor r fetch m all cpRanks).1.connectionPool.lookup key = some infos := by
  induction cpRanks with
  | nil => exact fun h => h
  | cons cpRank rest ih =>
    intro m all h
    unfold KVManager.setupFor
    dsimp only
    split
    · split
      · exact h
      · exact ih h
    · next hnone =>
      have hne : key ≠
          bootstrapKey r.bootstrapAddr r.prefillDpRank cpRank r.prefillInfo.targetTpRank := by
        rintro rfl
        rw [hnone] at h
        cases h
      split
      · exact h
      · split
        · exact (AList.lookup_insert_ne hne).trans h
        · exact ih ((AList.lookup_insert_ne hne).trans h)

/-- A receiver, of whatever room, that asks one address for the same ranks. -/
structure SameRanks (r r' : KVReceiver) : Prop where
  addr : r'.bootstrapAddr = r.bootstrapAddr
  dpRank : r'.prefillDpRank = r.prefillDpRank
  tpRank : r'.prefillInfo.targetTpRank = r.prefillInfo.targetTpRank
  cpRanks : r'.prefillInfo.targetCpRanks = r.prefillInfo.targetCpRanks

/-- Where the entries of a set-up are in the pool, another receiver of the ranks finds them
there. -/
theorem setupFor_pooled {r r' : KVReceiver} (hsame : SameRanks r r')
    {fetch fetch' : Nat → Nat → Nat → Nat → Option BootstrapInfo} {m' m'' : KVManager}
    {infos : List BootstrapInfo}
    (hkeep : ∀ key infos, m'.connectionPool.lookup key = some infos →
      m''.connectionPool.lookup key = some infos)
    (cpRanks : List Nat) : ∀ {m : KVManager} {all : List BootstrapInfo},
      KVManager.setupFor r fetch m all cpRanks = (m', .infos infos) →
        KVManager.setupFor r' fetch' m'' all cpRanks = (m'', .infos infos) := by
  induction cpRanks with
  | nil =>
    intro m all h
    exact congrArg (Prod.mk m'') (Prod.mk.inj h).2
  | cons cpRank rest ih =>
    intro m all h
    unfold KVManager.setupFor at h ⊢
    dsimp only at h ⊢
    rw [hsame.addr, hsame.dpRank, hsame.tpRank]
    split at h
    · next found hfound =>
      split at h
      · cases (Prod.mk.inj h).2
      · next hne =>
        rw [hkeep _ found
          (by rw [← show _ = m' from congrArg Prod.fst h]; exact lookup_setupFor rest hfound)]
        dsimp only
        rw [if_neg hne]
        exact ih h
    · split at h
      · cases (Prod.mk.inj h).2
      · next fetched _ =>
        split at h
        · cases (Prod.mk.inj h).2
        · next hne =>
          rw [hkeep _ fetched (by
            rw [← show _ = m' from congrArg Prod.fst h]
            exact lookup_setupFor rest (AList.lookup_insert _))]
          dsimp only
          rw [if_neg hne]
          exact ih h

/-- The set-ups of some receivers, each with what it can fetch. -/
def setups (m : KVManager)
    (rs : List (KVReceiver × (Nat → Nat → Nat → Nat → Option BootstrapInfo))) : KVManager :=
  rs.foldl (fun m r => (m.setupBootstrapInfos r.1 r.2).1) m

/-- A set-up changes no entry of another address, and what it found, every receiver of the same
ranks finds again without a fetch, whatever set-ups come in between. -/
theorem setup_again {m m' : KVManager} {r : KVReceiver}
    {fetch : Nat → Nat → Nat → Nat → Option BootstrapInfo} {infos : List BootstrapInfo}
    (h : m.setupBootstrapInfos r fetch = (m', .infos infos)) :
    (∀ key, ¬CreatedFor r.bootstrapAddr key →
      m'.connectionPool.lookup key = m.connectionPool.lookup key) ∧ ∀ later r' fetch',
      SameRanks r r' → (setups m' later).setupBootstrapInfos r' fetch' =
        (setups m' later, .infos infos) := by
  refine ⟨fun key hkey => ?_, fun later r' fetch' hsame => ?_⟩
  · rw [← lookup_setupBootstrapInfos m r fetch key hkey, h]
  · unfold KVManager.setupBootstrapInfos
    rw [hsame.cpRanks]
    refine setupFor_pooled hsame (fun key infos hlookup => ?_) _ h
    clear h
    induction later generalizing m' with
    | nil => exact hlookup
    | cons r' later ih => exact ih (lookup_setupFor _ hlookup)

/-- One prefill instance of one rank, and two rooms. -/
theorem setup_again_one : ∃ m m' : KVManager, ∃ r fetch infos, infos ≠ [] ∧
    m.setupBootstrapInfos r fetch = (m', .infos infos) ∧
      ∀ later room fetch',
      (setups m' later).setupBootstrapInfos { r with bootstrapRoom := room } fetch' =
        (setups m' later, .infos infos) :=
  let m : KVManager := ⟨false, ∅, fun _ => none, fun _ => [], fun _ => none, fun _ => none, []⟩
  let r : KVReceiver := ⟨"10.0.0.1:8998", 7, 0, ⟨0, [0], [0], [0]⟩⟩
  let h : m.setupBootstrapInfos r (fun _ _ _ _ => some ⟨some "10.0.0.1", some 7000, false⟩) =
    (_, _) := rfl
  ⟨m, _, r, _, _, cons_ne_nil _ _, h,
    fun later _ fetch' => (setup_again h).2 later _ fetch' ⟨rfl, rfl, rfl, rfl⟩⟩

/-! ## Section 5: What a failure does -/

namespace KVManager

def lost : Option KVPoll → Option KVPoll
  | none => none
  | some status => if status ≠ .success then some .failed else some status

theorem lost_eq (status : Option KVPoll) :
    lost status = if status ≠ none ∧ status ≠ some .success then some .failed else status := by
  rcases status with _ | _ | _ <;> rfl

theorem lost_lost (status : Option KVPoll) : lost (lost status) = lost status := by
  rcases status with _ | _ | _ <;> rfl

theorem requestStatus_failRoom (addr : String) (m : KVManager) (room r : Nat) :
    (m.failRoom addr room).requestStatus r = if r = room then lost
    (m.requestStatus r) else m.requestStatus r := by
  unfold failRoom
  split
  · next hnone =>
    split
    · next heq => rw [heq, hnone, lost]
    · rfl
  · next status hsome =>
    by_cases heq : r = room
    · subst heq
      rw [if_pos rfl, hsome, lost]
      split
      · simp [fail, updateStatus, hsome]
      · exact hsome
    · rw [if_neg heq]
      split
      · simp [fail, updateStatus, hsome, heq]
      · rfl

theorem failRoom_frame (addr : String) (m : KVManager) (room : Nat) :
    (m.failRoom addr room).connectionPool = m.connectionPool ∧
    (m.failRoom addr room).prefillInfoTable = m.prefillInfoTable ∧
    (m.failRoom addr room).addrToRoomsTracker = m.addrToRoomsTracker ∧
    (m.failRoom addr room).socketCache = m.socketCache := by
  unfold failRoom
  split
  · exact ⟨rfl, rfl, rfl, rfl⟩
  · split <;> exact ⟨rfl, rfl, rfl, rfl⟩

theorem failRooms_frame (addr : String) (rooms : List Nat) (m : KVManager) :
    (rooms.foldl (failRoom addr) m).connectionPool = m.connectionPool ∧
    (rooms.foldl (failRoom addr) m).prefillInfoTable = m.prefillInfoTable ∧
    (rooms.foldl (failRoom addr) m).addrToRoomsTracker = m.addrToRoomsTracker ∧
    (rooms.foldl (failRoom addr) m).socketCache = m.socketCache := by
  induction rooms generalizing m with
  | nil => exact ⟨rfl, rfl, rfl, rfl⟩
  | cons room rooms ih =>
    obtain ⟨hpool, hinfo, hrooms, hsockets⟩ := ih (failRoom addr m room)
    obtain ⟨hpool', hinfo', hrooms', hsockets'⟩ := failRoom_frame addr m room
    exact ⟨hpool.trans hpool', hinfo.trans hinfo', hrooms.trans hrooms', hsockets.trans hsockets'⟩

theorem requestStatus_failRooms (addr : String) (rooms : List Nat) (m : KVManager) (r : Nat) :
    (rooms.foldl (failRoom addr) m).requestStatus r =
      if r ∈ rooms then lost (m.requestStatus r) else m.requestStatus r := by
  induction rooms generalizing m with
  | nil => rfl
  | cons room rooms ih =>
    rw [foldl_cons, ih, requestStatus_failRoom]
    by_cases heq : r = room
    · subst heq
      simp [lost_lost]
    · simp [heq]

theorem lookup_eraseAll (keys : List String) (pool : ConnectionPool) (key : String) :
    (keys.foldl (fun pool k => pool.erase k) pool).lookup key =
      if key ∈ keys then none else pool.lookup key := by
  induction keys generalizing pool with
  | nil => rfl
  | cons k keys ih =>
    rw [foldl_cons, ih]
    by_cases heq : key = k
    · subst heq
      simp
    · simp [heq]

theorem mem_disconnectAll (endpoints cache : List String) (e : String) :
    e ∈ endpoints.foldl (fun cache e => cache.filter (· ≠ e)) cache ↔
    e ∈ cache ∧ e ∉ endpoints := by
  induction endpoints generalizing cache with
  | nil => simp
  | cons e' endpoints ih =>
    rw [foldl_cons, ih, mem_filter, mem_cons, not_or, and_assoc]
    simp

end KVManager

/-- `e` is the endpoint of an entry created for `addr`. -/
def EndpointOf (isIpv6 : String → Bool) (m : KVManager) (addr e : String) : Prop :=
  ∃ key infos, CreatedFor addr key ∧ m.connectionPool.lookup key = some infos ∧
    ∃ info ∈ infos, KVManager.endpoint isIpv6 info = some e

/-- A failure of `addr`, from `m` to `m'`, touches only that node. -/
structure TouchesOnly (isIpv6 : String → Bool) (addr : String) (m m' : KVManager) : Prop where
  removed : ∀ key, CreatedFor addr key → m'.connectionPool.lookup key = none
  kept : ∀ key, ¬CreatedFor addr key → m'.connectionPool.lookup key = m.connectionPool.lookup key
  sockets : ∀ e, e ∈ m'.socketCache ↔ e ∈ m.socketCache ∧ ¬EndpointOf isIpv6 m addr e
  socketsOfOthers : ∀ other, other ≠ addr → ∀ e, EndpointOf isIpv6 m other e →
    (e ∈ m'.socketCache ↔ e ∈ m.socketCache)
  infos : m'.prefillInfoTable = update m.prefillInfoTable addr none
  rooms : ∀ room, m'.requestStatus room =
    if room ∈ m.addrToRoomsTracker addr ∧ m.requestStatus room ≠ none ∧
        m.requestStatus room ≠ some .success then some .failed
    else m.requestStatus room
  tracked : m'.addrToRoomsTracker = update m.addrToRoomsTracker addr []

/-- No key of another node starts with the address, and no open endpoint of the node is that of
another. -/
structure Separate (isIpv6 : String → Bool) (addr : String) (m : KVManager) : Prop where
  keys : ∀ key, m.connectionPool.lookup key ≠ none → KVManager.startsWith key addr = true →
    CreatedFor addr key
  sockets : ∀ e ∈ m.socketCache, EndpointOf isIpv6 m addr e → ∀ other, other ≠ addr →
    ¬EndpointOf isIpv6 m other e

variable {isIpv6 : String → Bool} {addr : String} {m : KVManager}

theorem lookup_handleNodeFailure (key : String) :
    (m.handleNodeFailure isIpv6 addr).connectionPool.lookup key =
      if KVManager.startsWith key addr then none else m.connectionPool.lookup key := by
  unfold KVManager.handleNodeFailure
  rw [(KVManager.failRooms_frame addr _ _).1]
  dsimp only
  rw [KVManager.lookup_eraseAll]
  by_cases hmem : key ∈ m.connectionPool.keys
  · simp [hmem]
  · rw [if_neg fun h => hmem (mem_filter.mp h).1, AList.lookup_eq_none.mpr hmem, ite_self]

theorem mem_socketCache_handleNodeFailure (e : String) :
    e ∈ (m.handleNodeFailure isIpv6 addr).socketCache ↔
      e ∈ m.socketCache ∧ ¬∃ key infos, KVManager.startsWith key addr = true ∧
        m.connectionPool.lookup key = some infos ∧
        ∃ info ∈ infos, KVManager.endpoint isIpv6 info = some e := by
  unfold KVManager.handleNodeFailure
  rw [(KVManager.failRooms_frame addr _ _).2.2.2]
  dsimp only
  rw [KVManager.mem_disconnectAll]
  refine and_congr_right fun _ => not_congr ?_
  simp only [mem_flatMap, mem_filter, mem_filterMap]
  constructor
  · rintro ⟨key, ⟨hmem, hstarts⟩, info, hinfo, hend⟩
    obtain ⟨infos, hlookup⟩ := isSome_iff_exists.mp (AList.lookup_isSome.mpr hmem)
    rw [hlookup, getD_some] at hinfo
    exact ⟨key, infos, hstarts, hlookup, info, hinfo, hend⟩
  · rintro ⟨key, infos, hstarts, hlookup, info, hinfo, hend⟩
    have hmem : key ∈ m.connectionPool := AList.lookup_isSome.mp (by rw [hlookup, isSome_some])
    exact ⟨key, ⟨hmem, hstarts⟩, info, by rwa [hlookup, getD_some], hend⟩

theorem Separate.endpointOf_iff (h : Separate isIpv6 addr m) (e : String) :
    (∃ key infos, KVManager.startsWith key addr = true ∧ m.connectionPool.lookup key = some infos ∧
      ∃ info ∈ infos, KVManager.endpoint isIpv6 info = some e) ↔ EndpointOf isIpv6 m addr e := by
  constructor
  · rintro ⟨key, infos, hstarts, hlookup, hinfo⟩
    exact ⟨key, infos, h.keys key (by simp [hlookup]) hstarts, hlookup, hinfo⟩
  · rintro ⟨key, infos, hcreated, hlookup, hinfo⟩
    exact ⟨key, infos, hcreated.startsWith, hlookup, hinfo⟩

theorem Separate.touchesOnly (h : Separate isIpv6 addr m) :
    TouchesOnly isIpv6 addr m (m.handleNodeFailure isIpv6 addr) where
  removed key hcreated := by
    rw [lookup_handleNodeFailure, if_pos hcreated.startsWith]
  kept key hother := by
    rw [lookup_handleNodeFailure]
    split
    · next hstarts =>
      by_contra hne
      exact hother (h.keys key (fun hnone => hne hnone.symm) hstarts)
    · rfl
  sockets e := by
    rw [mem_socketCache_handleNodeFailure, h.endpointOf_iff]
  socketsOfOthers other hne e he := by
    rw [mem_socketCache_handleNodeFailure, h.endpointOf_iff]
    exact ⟨And.left, fun hmem => ⟨hmem, fun hend => h.sockets e hmem hend other hne he⟩⟩
  infos := (KVManager.failRooms_frame addr _ _).2.1
  rooms room := by
    unfold KVManager.handleNodeFailure
    rw [KVManager.requestStatus_failRooms, KVManager.lost_eq]
    by_cases hroom : room ∈ m.addrToRoomsTracker addr <;> simp [hroom]
  tracked := (KVManager.failRooms_frame addr _ _).2.2.1

/-- A failure touches only its own node exactly when the node is told apart from the others. -/
theorem touchesOnly_iff (isIpv6 : String → Bool) (addr : String) (m : KVManager) :
    TouchesOnly isIpv6 addr m (m.handleNodeFailure isIpv6 addr) ↔ Separate isIpv6 addr m := by
  constructor
  · intro h
    constructor
    · intro key hlookup hstarts
      by_contra hother
      have hkept := h.kept key hother
      rw [lookup_handleNodeFailure, if_pos hstarts] at hkept
      exact hlookup hkept.symm
    · intro e hmem hend other hne hother
      have hstays := (h.socketsOfOthers other hne e hother).mpr hmem
      exact ((h.sockets e).mp hstays).2 hend
  · exact Separate.touchesOnly

/-- Two nodes on one host: the port of the one is the beginning of the port of the other. -/
def twoPorts : KVManager where
  isMlaBackend := false
  connectionPool :=
    (AList.insert "10.0.0.1:80_0_0_0" [⟨some "10.0.0.1", some 5000, false⟩] ∅).insert
    "10.0.0.1:8000_0_0_0" [⟨some "10.0.0.1", some 6000, false⟩]
  prefillInfoTable := fun _ => none
  addrToRoomsTracker := fun _ => []
  requestStatus := fun _ => none
  failureRecords := fun _ => none
  socketCache := ["tcp://10.0.0.1:5000", "tcp://10.0.0.1:6000"]

/-- When the node at port 80 fails, the connections of the node at port 8000 are gone. -/
theorem twoPorts_touched :
    ¬TouchesOnly (fun _ => false) "10.0.0.1:80" twoPorts
      (twoPorts.handleNodeFailure (fun _ => false) "10.0.0.1:80") := by
  intro h
  have hcreated : CreatedFor "10.0.0.1:8000" "10.0.0.1:8000_0_0_0" := ⟨0, 0, 0, by decide⟩
  have hother : ¬CreatedFor "10.0.0.1:80" "10.0.0.1:8000_0_0_0" := by
    intro hcreated'
    have heq := hcreated.unique hcreated'
    revert heq
    decide
  have hkept := h.kept _ hother
  rw [lookup_handleNodeFailure, if_pos (by decide)] at hkept
  revert hkept
  decide

end Sglang.Disaggregation.NodeFailure
