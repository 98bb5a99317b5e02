import Sglang.Lib.IndexPermutation

/-!
# Balancing of Experts

Model of `eplb_algorithms/deepseek.py`: packing items into packs of one size, replicating experts,
and the hierarchical policy that combines them. A row of a tensor is a function on its positions;
the rows of the layers do not depend on each other, so a function is modelled on the row of one
layer.

The loads are of an arbitrary type with the operations the code uses (`Loads`). Nothing is assumed
of their values: what is proved about the maps holds for every order the sort returns and every
maximum that is chosen.
-/

namespace Sglang.Eplb

open Function
open Lib

/-- The arithmetic of the loads. -/
structure Loads (W : Type) where
  zero : W
  add : W → W → W
  lt : W → W → Bool
  /-- A load shared by some replicas. -/
  divide : W → Nat → W
  sum : List W → W
  /-- The indices of `sort(-1, descending=True)`. -/
  sortDescending : List W → List Nat
  sortDescending_perm : ∀ ws, (sortDescending ws).Perm (List.range ws.length)
  /-- The index of `max(dim=-1)`. -/
  argmax : List W → Nat
  argmax_lt : ∀ ws, ws ≠ [] → argmax ws < ws.length

variable {W : Type}

/-- Python's `min(candidates, key=key)`: the first smallest one, `none` for the `ValueError` of
none. -/
def minBy (lt : W → W → Bool) (key : Nat → W) : List Nat → Option Nat
  | [] => none
  | j :: js => some (js.foldl (fun best x => if lt (key x) (key best) then x else best) j)

/-- The state of the loop of `balanced_packing`. -/
structure PackState (W : Type) where
  packIndex : Nat → Int := fun _ => -1
  rankInPack : Nat → Int := fun _ => -1
  packWeights : Nat → W
  packItems : Nat → Nat := fun _ => 0

section Deepseek

variable (L : Loads W)

/-- One item of the loop of `balanced_packing`. -/
def packItem (numPacks groupsPerPack : Nat) (weight : Nat → W) (st : PackState W) (group : Nat) :
    Option (PackState W) := do
  let pack ← minBy L.lt st.packWeights
    ((List.range numPacks).filter fun j => st.packItems j < groupsPerPack)
  some {
    packIndex := update st.packIndex group pack
    rankInPack := update st.rankInPack group (st.packItems pack)
    packWeights := update st.packWeights pack (L.add (st.packWeights pack) (weight group))
    packItems := update st.packItems pack (st.packItems pack + 1) }

/-- `balanced_packing` of `numGroups` items: the pack of each and its rank there. -/
def balancedPacking (numGroups numPacks : Nat) (weight : Nat → W) :
    Option ((Nat → Nat) × (Nat → Nat)) :=
  if numPacks = 0 ∨ numGroups % numPacks ≠ 0 then none
  else
    let groupsPerPack := numGroups / numPacks
    if groupsPerPack = 1 then some (id, fun _ => 0)
    else do
      let st ← (L.sortDescending ((List.range numGroups).map weight)).foldlM
        (packItem L numPacks groupsPerPack weight) { packWeights := fun _ => L.zero }
      some (fun g => (st.packIndex g).toNat, fun g => (st.rankInPack g).toNat)

/-- What an expert placement is made of: the expert of each slot, which of its replicas the slot is,
and how many replicas each expert has. -/
structure Replicas where
  phy2log : Nat → Nat
  phyrank : Nat → Nat
  logcnt : Nat → Nat

/-- One replica more, of the expert with the largest load per replica. -/
def replicateExpert (numLog : Nat) (weight : Nat → W) (r : Replicas) (i : Nat) : Replicas :=
  let redundant := L.argmax ((List.range numLog).map fun e => L.divide (weight e) (r.logcnt e))
  { phy2log := update r.phy2log i redundant
    phyrank := update r.phyrank i (r.logcnt redundant)
    logcnt := update r.logcnt redundant (r.logcnt redundant + 1) }

/-- `replicate_experts`; the maximum of no experts raises. -/
def replicateExperts (numLog numPhy : Nat) (weight : Nat → W) : Option Replicas :=
  if numPhy < numLog ∨ (numLog = 0 ∧ 0 < numPhy) then none
  else
    some ((List.range' numLog (numPhy - numLog)).foldl (replicateExpert L numLog weight)
      { phy2log := id, phyrank := fun _ => 0, logcnt := fun _ => 1 })

/-- Steps 2 and 3 of `rebalance_experts_hierarchical` on one node: its replicas, and which of them
each slot of the node holds. -/
structure NodePlan where
  replicas : Replicas
  pphy2phy : Nat → Nat

def nodePlan (logPerNode phyPerNode gpusPerNode phyExpertsPerGpu : Nat) (tokensPerMlog : Nat → W) :
    Option NodePlan := do
  let r ← replicateExperts L logPerNode phyPerNode tokensPerMlog
  let tokensPerPhy p := L.divide (tokensPerMlog (r.phy2log p)) (r.logcnt (r.phy2log p))
  let (packIndex, rankInPack) ← balancedPacking L phyPerNode gpusPerNode tokensPerPhy
  let phy2pphy p := packIndex p * phyExpertsPerGpu + rankInPack p
  some { replicas := r, pphy2phy := inverse phyPerNode phy2pphy }

/-- `rebalance_experts_hierarchical` on one layer. -/
def rebalanceExpertsHierarchical (numLogical numPhysical numGroups numNodes numGpus : Nat)
    (weight : Nat → W) : Option Replicas :=
  if numGroups = 0 ∨ numLogical % numGroups ≠ 0 ∨ numNodes = 0 ∨ numGroups % numNodes ≠ 0 ∨
      numGpus % numNodes ≠ 0 ∨ numGpus = 0 ∨ numPhysical % numGpus ≠ 0 then none
  else do
    let groupSize := numLogical / numGroups
    let groupsPerNode := numGroups / numNodes
    let phyExpertsPerGpu := numPhysical / numGpus
    -- step 1: pack groups to nodes
    let tokensPerGroup g := L.sum ((List.range groupSize).map fun j => weight (g * groupSize + j))
    let (groupPackIndex, groupRankInPack) ← balancedPacking L numGroups numNodes tokensPerGroup
    let log2mlog e :=
      (groupPackIndex (e / groupSize) * groupsPerNode + groupRankInPack (e / groupSize)) *
        groupSize + e % groupSize
    let mlog2log := inverse numLogical log2mlog
    -- steps 2 and 3, for each node
    let logPerNode := numLogical / numNodes
    let phyPerNode := numPhysical / numNodes
    let plans ← (List.range numNodes).mapM fun k =>
      nodePlan L logPerNode phyPerNode (numGpus / numNodes) phyExpertsPerGpu
        fun j => weight (mlog2log (k * logPerNode + j))
    let plan k := plans.getD k ⟨⟨id, id, id⟩, id⟩
    let phyOf q := (plan (q / phyPerNode)).pphy2phy (q % phyPerNode)
    let pphy2mlog q :=
      (plan (q / phyPerNode)).replicas.phy2log (phyOf q) + q / phyPerNode * logPerNode
    some {
      phy2log := fun q => mlog2log (pphy2mlog q)
      phyrank := fun q => (plan (q / phyPerNode)).replicas.phyrank (phyOf q)
      logcnt := fun e =>
        (plan (log2mlog e / logPerNode)).replicas.logcnt (log2mlog e % logPerNode) }

end Deepseek

end Sglang.Eplb
