import Mathlib.Data.List.Sort
import Mathlib.Tactic
import Sglang.Gateway.Policies
import Sglang.Lib.IntervalTiling

/-!
# Bucket Routing Policy

Model of `policies/bucket.rs`: a `Bucket` for each model, whose boundaries map the length of a
request to a prefill worker, and the operations of `BucketPolicy` on it.

## Conventions

- `usize` has 64 bits. In the arithmetic of `init_prefill_worker_urls` and `adjust_boundary`, `none`
  is an underflow or overflow; elsewhere the sums wrap as in a release build.
- A `HashMap` is a list of entries with distinct keys. The order in which it is iterated matters
  only for the least loaded url, where the call comes with the choice.
- Times are nanoseconds; a call comes with the `SystemTime` and the `Uuid` it reads.
- Whether loads are imbalanced is decided in `f32`, and the test is a parameter of the policy.
-/

namespace Sglang.Gateway

open Lib (bisect)

/-- `usize::MAX`. -/
def usizeMax : Nat := 2 ^ 64 - 1

/-- `a + b`. -/
def usizeAdd (a b : Nat) : Option Nat := if a + b ≤ usizeMax then some (a + b) else none

/-- `a - b`. -/
def usizeSub (a b : Nat) : Option Nat := if b ≤ a then some (a - b) else none

/-- `a * b`. -/
def usizeMul (a b : Nat) : Option Nat := if a * b ≤ usizeMax then some (a * b) else none

/-! ## Section 1: Counters by key -/

/-- `HashMap<String, usize>`. -/
abbrev Counts := List (String × Nat)

namespace Counts

/-- `entry(key).or_insert(0)`. -/
def ensure (m : Counts) (key : String) : Counts :=
  if m.any (fun e => e.1 = key) then m else m ++ [(key, 0)]

/-- Apply a function to the value of a key that is there. -/
def modify (m : Counts) (key : String) (f : Nat → Nat) : Counts :=
  m.map fun e => if e.1 = key then (e.1, f e.2) else e

/-- `remove(key)`. -/
def remove (m : Counts) (key : String) : Counts := m.filter fun e => e.1 ≠ key

/-- `insert(key, value)`. -/
def insert (m : Counts) (key : String) (value : Nat) : Counts := m.remove key ++ [(key, value)]

/-- `values()`. -/
def values (m : Counts) : List Nat := m.map Prod.snd

end Counts

/-! ## Section 2: The bucket of a model -/

structure SequencerRequest where
  id : String
  charCnt : Nat
  timestamp : Nat
  prefillWorkerUrl : String
deriving DecidableEq, Repr

structure Boundary where
  url : String
  range : Nat × Nat
deriving DecidableEq, Repr

structure Bucket where
  lMax : Nat
  bucketCnt : Nat
  prefillWorkerUrls : List String
  loadTotal : Nat
  /-- Milliseconds -/
  period : Nat
  bucketLoad : Nat
  boundary : List Boundary
  requestList : List SequencerRequest
  tReqLoads : Counts
  charsPerUrl : Counts
deriving DecidableEq, Repr

namespace Bucket

def new (period : Nat) : Bucket where
  lMax := 4096
  bucketCnt := 0
  prefillWorkerUrls := []
  loadTotal := 0
  period := period
  bucketLoad := 0
  boundary := []
  requestList := []
  tReqLoads := []
  charsPerUrl := []

/-- The boundaries of `init_prefill_worker_urls` from the `i`-th on, of `workerCnt`. -/
def evenSplit (workerCnt gap lMax : Nat) : Nat → List String → Option (List Boundary)
  | _, [] => some []
  | i, url :: urls => do
    let min ← usizeMul i gap
    let max ← if i = workerCnt - 1 then some lMax else do
      let next ← usizeMul (i + 1) gap
      usizeSub next 1
    let rest ← evenSplit workerCnt gap lMax (i + 1) urls
    some (⟨url, (min, max)⟩ :: rest)

def initPrefillWorkerUrls (b : Bucket) (urls : List String) : Option Bucket := do
  let workerCnt := urls.length
  let b := { b with
    bucketCnt := workerCnt
    prefillWorkerUrls := urls
    charsPerUrl := urls.foldl (fun m url => m.insert url 0) ([] : Counts) }
  if workerCnt = 0 then some { b with boundary := [] }
  else
    let gap := b.lMax / workerCnt
    -- from here on every split is over all of `usize`
    let lMax := usizeMax
    let boundary ← evenSplit workerCnt gap lMax 0 urls
    some { b with lMax, boundary }

/-- The part of `add_prefill_url` under the lock of the bucket. -/
def addPrefillUrl (b : Bucket) (url : String) : Option Bucket :=
  let urls :=
    if url ∈ b.prefillWorkerUrls then b.prefillWorkerUrls else b.prefillWorkerUrls ++ [url]
  initPrefillWorkerUrls
    { b with prefillWorkerUrls := urls, charsPerUrl := b.charsPerUrl.ensure url } urls

/-- The part of `remove_prefill_url` under the lock of the bucket. -/
def removePrefillUrl (b : Bucket) (url : String) : Option Bucket :=
  let urls := b.prefillWorkerUrls.filter fun u => u ≠ url
  let b := { b with
    prefillWorkerUrls := urls
    charsPerUrl := b.charsPerUrl.remove url
    bucketCnt := urls.length }
  -- the boundary of the last worker stays
  if 0 < urls.length then b.initPrefillWorkerUrls urls else some b

/-- A request whose time is over; also one from the future, where `duration_since` fails. -/
def Expired (now window : Nat) (req : SequencerRequest) : Prop :=
  req.timestamp ≤ now → window < now - req.timestamp

instance (now window : Nat) : DecidablePred (Expired now window) := fun _ =>
  inferInstanceAs (Decidable (_ → _))

/-- The requests that `post_process_request` takes from the front of the list. -/
def expiredRequests (b : Bucket) (now : Nat) : List SequencerRequest :=
  b.requestList.takeWhile fun req => Expired now (b.period * 10 ^ 6) req

def keptRequests (b : Bucket) (now : Nat) : List SequencerRequest :=
  b.requestList.dropWhile fun req => Expired now (b.period * 10 ^ 6) req

def charsOf (requests : List SequencerRequest) : Nat :=
  (requests.map SequencerRequest.charCnt).sum

def postProcessRequest (b : Bucket) (charCnt : Nat) (prefillUrl : String) (now : Nat)
    (id : String) :
    Bucket :=
  let chars := (b.charsPerUrl.ensure prefillUrl).modify prefillUrl fun n =>
    (n + charCnt) % (usizeMax + 1)
  let removed := b.expiredRequests now
  let loads := removed.foldl (fun m req => m.remove req.id) b.tReqLoads
  let removedLoad := charsOf removed % (usizeMax + 1)
  { b with
    charsPerUrl := removed.foldl
      (fun m req => m.modify req.prefillWorkerUrl fun n => n - req.charCnt) chars
    tReqLoads := loads.insert id charCnt
    requestList := b.keptRequests now ++ [⟨id, charCnt, now, prefillUrl⟩]
    loadTotal := min (b.loadTotal - removedLoad + charCnt) usizeMax }

/-- On which side of the range at `mid` a length is. -/
def side (b : Bucket) (charCount mid : Nat) : Ordering :=
  match b.boundary[mid]? with
  | none => .lt
  | some e =>
    if charCount < e.range.1 then .lt
    else if charCount > e.range.2 then .gt
    else .eq

def findBoundary (b : Bucket) (charCount : Nat) : Option String :=
  (bisect (b.side charCount) (b.boundary.length + 1) 0 b.boundary.length).bind fun mid =>
    b.boundary[mid]?.map Boundary.url

def updateWorkersCnt (b : Bucket) : Bucket :=
  let added := b.prefillWorkerUrls.dedup.filter fun url => ¬ b.charsPerUrl.any fun e => e.1 = url
  { b with
    bucketCnt := b.prefillWorkerUrls.length
    charsPerUrl := (b.charsPerUrl.filter fun e => e.1 ∈ b.prefillWorkerUrls ∨ e.2 ≠ 0) ++
      added.map fun url => (url, 0) }

/-- The inner loop of `adjust_boundary`: the load that fills the bucket, and the loads after it. -/
def fill (single : Nat) : Nat → List Nat → Option (Option Nat × List Nat)
  | _, [] => some (none, [])
  | acc, load :: loads => do
    let acc ← usizeAdd acc load
    if single ≤ acc then some (some load, loads) else fill single acc loads

/-- The outer loop of `adjust_boundary`, from `upperBound` on over the loads that are left. -/
def sweep (single : Nat) : Nat → List Nat → List String → Option (List Boundary)
  | _, _, [] => some []
  | upperBound, [], [url] => some [⟨url, (upperBound, usizeMax)⟩]
  | upperBound, loads, url :: urls => do
    let (full, loads) ← fill single 0 loads
    match full with
    | some load =>
      if urls = [] then some [⟨url, (upperBound, usizeMax)⟩]
      else
        let realLoad ← usizeAdd upperBound single
        let top := if load ≤ upperBound then realLoad else load
        let next ← usizeAdd top 1
        let rest ← sweep single next loads urls
        some (⟨url, (upperBound, top)⟩ :: rest)
    | none =>
      let rightBoundValue ← usizeAdd upperBound single
      if urls = [] then some [⟨url, (upperBound, usizeMax)⟩]
      else
        let next ← usizeAdd rightBoundValue 1
        let rest ← sweep single next loads urls
        some (⟨url, (upperBound, rightBoundValue)⟩ :: rest)

/-- The test of `adjust_boundary` that there is no need to adjust. -/
def balanced (new old : Nat) : Option Bool := do
  let twiceOld ← usizeMul 2 old
  if new ≤ twiceOld then
    let twiceNew ← usizeMul 2 new
    some (old ≤ twiceNew && old ≠ 0)
  else some false

def adjustBoundary (b : Bucket) : Option Bucket :=
  if b.tReqLoads = [] then some b
  else
    let b := b.updateWorkersCnt
    if b.bucketCnt = 0 then some b
    else do
      let new := b.loadTotal / b.bucketCnt
      let keep ← balanced new b.bucketLoad
      if keep then some b
      else
        let histLoad := b.tReqLoads.values.insertionSort (· ≤ ·)
        let boundary ← sweep new 0 histLoad b.prefillWorkerUrls
        some { b with bucketLoad := new, boundary }

/-- The operations on a bucket. -/
inductive Op where
  | initPrefillWorkerUrls (urls : List String)
  | addPrefillUrl (url : String)
  | removePrefillUrl (url : String)
  | postProcessRequest (charCnt : Nat) (prefillUrl : String) (now : Nat) (id : String)
  | adjustBoundary
deriving DecidableEq, Repr

def step (b : Bucket) : Op → Option Bucket
  | .initPrefillWorkerUrls urls => b.initPrefillWorkerUrls urls
  | .addPrefillUrl url => b.addPrefillUrl url
  | .removePrefillUrl url => b.removePrefillUrl url
  | .postProcessRequest charCnt prefillUrl now id =>
    some (b.postProcessRequest charCnt prefillUrl now id)
  | .adjustBoundary => b.adjustBoundary

end Bucket

/-! ## Section 3: The policy -/

/-- `BucketPolicy`, with a bucket for each model. -/
structure BucketPolicy where
  buckets : String → Option Bucket
  /-- `config.bucket_adjust_interval_secs * 1000`. -/
  period : Nat
  /-- `abs_diff > balance_abs_threshold && max_load as f32 > rel_threshold`, of `max_load` and
  `min_load`. -/
  imbalanced : Nat → Nat → Bool
  unknownModelId : String

namespace BucketPolicy

def withConfig (period : Nat) (imbalanced : Nat → Nat → Bool) (unknownModelId : String) :
    BucketPolicy :=
  ⟨fun _ => none, period, imbalanced, unknownModelId⟩

/-- Whether an operation makes the bucket it works on, as `init_prefill_worker_urls` and
`add_prefill_url` do. -/
def opens : Bucket.Op → Bool
  | .initPrefillWorkerUrls _ => true
  | .addPrefillUrl _ => true
  | _ => false

/-- An operation on the bucket of a model. -/
def step (p : BucketPolicy) (op : String × Bucket.Op) : Option BucketPolicy :=
  let fresh := if opens op.2 then some (Bucket.new p.period) else none
  match (p.buckets op.1).or fresh with
  | none => some p
  | some b => (b.step op.2).map fun b =>
    { p with buckets := Function.update p.buckets op.1 (some b) }

/-- `init_prefill_worker_urls`, as operations on the buckets of the models. -/
def initPrefillWorkerUrls (p : BucketPolicy) (workers : List Worker) : List (String × Bucket.Op) :=
  let key := fun w : Worker => normalizeModelKey p.unknownModelId w.modelId
  (workers.map key).dedup.map fun k =>
    (k, .initPrefillWorkerUrls ((workers.filter fun w => key w = k).map Worker.url))

/-- The url with the least characters; `tie` chooses among several. -/
def leastUrl (chars : Counts) (tie : Nat) : Option String :=
  let least := chars.values.min?
  let urls := (chars.filter fun e => some e.2 = least).map Prod.fst
  urls[tie % urls.length]?

/-- The url that `select_worker` prefers: that of the least loaded worker, or of the range. -/
def preferredUrl (p : BucketPolicy) (b : Bucket) (charCount tie : Nat) : Option String :=
  let maxLoad := (b.charsPerUrl.values.max?).getD 0
  let minLoad := (b.charsPerUrl.values.min?).getD 0
  if p.imbalanced maxLoad minLoad then leastUrl b.charsPerUrl tie
  else (b.findBoundary charCount).filter fun url => url ≠ ""

def selectWorker (p : BucketPolicy) (workers : List Worker) (requestText : Option (List Char))
    (random tie now : Nat) (id : String) : BucketPolicy × Option Nat :=
  let healthyIndices := getHealthyWorkerIndices workers
  match healthyIndices.head? with
  | none => (p, none)
  | some first =>
    let charCount := (requestText.map List.length).getD 0
    let modelKey :=
      normalizeModelKey p.unknownModelId ((workers[first]?.map Worker.modelId).getD "")
    let randomUrl := urlAt workers ((randomSelect healthyIndices random).getD first)
    match p.buckets modelKey with
    | none => (p, positionOf workers randomUrl)
    | some b =>
      let prefillUrl := (p.preferredUrl b charCount tie).getD randomUrl
      let b := b.postProcessRequest charCount prefillUrl now id
      ({ p with buckets := Function.update p.buckets modelKey (some b) },
        positionOf workers prefillUrl)

end BucketPolicy

end Sglang.Gateway
