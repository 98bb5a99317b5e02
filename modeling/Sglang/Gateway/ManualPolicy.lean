import Mathlib.Data.List.Basic
import Mathlib.Logic.Function.Basic
import Mathlib.Tactic
import Sglang.Gateway.Policies

/-!
# Manual Routing Policy

Model of `policies/manual.rs`: up to two candidate urls for each routing key.

- Times come with the calls.
- A choice among no workers panics, which is `none`.
-/

namespace Sglang.Gateway

def maxCandidateWorkers : Nat := 2

inductive ManualAssignmentMode where
  | random
  | minLoad
  | minGroup
deriving DecidableEq, Repr

/-- `Node` of the routing map. -/
structure ManualNode where
  candiWorkerUrls : List String
  lastAccess : Nat
deriving DecidableEq, Repr

/-- `push_bounded`: the oldest candidates leave until there is room for one more. -/
def ManualNode.pushBounded (n : ManualNode) (url : String) : ManualNode :=
  { n with
    candiWorkerUrls :=
      n.candiWorkerUrls.drop (n.candiWorkerUrls.length + 1 - maxCandidateWorkers) ++ [url] }

structure ManualPolicy where
  routingMap : String → Option ManualNode
  assignmentMode : ManualAssignmentMode

/-- A pass of the loop of `select_min_by`: the least value so far, and the indices that have it. -/
def minPass (value : Nat → Nat) (state : Option Nat × List Nat) (idx : Nat) :
    Option Nat × List Nat :=
  match state.1 with
  | none => (some (value idx), [idx])
  | some m =>
    if value idx < m then (some (value idx), [idx])
    else if value idx = m then (some m, state.2 ++ [idx])
    else state

def selectMinBy (value : Nat → Nat) (indices : List Nat) (random : Nat) : Option Nat :=
  randomSelect (indices.foldl (minPass value) (none, [])).2 random

def findHealthyWorker (urls : List String) (workers : List Worker) (healthyIndices : List Nat) :
    Option Nat :=
  urls.findSome? fun url => (positionOf workers url).filter fun idx => idx ∈ healthyIndices

namespace ManualPolicy

def selectNewWorker (p : ManualPolicy) (workers : List Worker) (healthyIndices : List Nat)
    (random : Nat) : Option Nat :=
  match p.assignmentMode with
  | .random => randomSelect healthyIndices random
  | .minLoad =>
    selectMinBy (fun i => (workers[i]?.map Worker.load).getD 0) healthyIndices random
  | .minGroup =>
    selectMinBy (fun i => (workers[i]?.map Worker.routingKeyLoad).getD 0) healthyIndices random

def setNode (p : ManualPolicy) (routingId : String) (n : ManualNode) : ManualPolicy :=
  { p with routingMap := Function.update p.routingMap routingId (some n) }

def selectByRoutingId (p : ManualPolicy) (workers : List Worker) (routingId : String)
    (healthyIndices : List Nat) (random now : Nat) : Option (ManualPolicy × Nat) :=
  match p.routingMap routingId with
  | some node =>
    let node := { node with lastAccess := now }
    match findHealthyWorker node.candiWorkerUrls workers healthyIndices with
    | some idx => some (p.setNode routingId node, idx)
    | none => do
      let idx ← p.selectNewWorker workers healthyIndices random
      some (p.setNode routingId (node.pushBounded (urlAt workers idx)), idx)
  | none => do
    let idx ← p.selectNewWorker workers healthyIndices random
    some (p.setNode routingId ⟨[urlAt workers idx], now⟩, idx)

/-- `select_worker_impl`; the routing key comes from the headers. -/
def selectWorker (p : ManualPolicy) (workers : List Worker) (routingKey : Option String)
    (random now : Nat) : Option (ManualPolicy × Option Nat) :=
  let healthyIndices := getHealthyWorkerIndices workers
  if healthyIndices = [] then some (p, none)
  else
    match routingKey with
    | some routingId =>
      (p.selectByRoutingId workers routingId healthyIndices random now).map fun (p, idx) =>
        (p, some idx)
    | none => (randomSelect healthyIndices random).map fun idx => (p, some idx)

end ManualPolicy

end Sglang.Gateway
